import Cs324.EpollProxy.Steps

namespace Cs324.EpollProxy
set_option autoImplicit true

/-- The clients are attached one after another, each while no open client is attached to the
slot. -/
def Sys.AttachesFree (s : Sys) (i : Fin maxStates) : List Int → Prop
  | [] => True
  | fd :: fds => (∀ other, s.sockets.attached other ≠ some i) ∧ (s.attach i fd).AttachesFree i fds

/-- `connect_to_client` never attaches a client to a slot that has another one. -/
def AttachesFree (listenfd : Int) (s : Sys) : Action → Prop
  | .event ptr flags accepts =>
    s.clientFd listenfd ptr = listenfd → flags.skip = false →
      s.AttachesFree s.connStateIdx accepts.clients
  | _ => True

/-- The slot that the counter has come to after so many events of the listen socket. -/
def slotOf (event : Nat) : Fin maxStates :=
  ⟨event % maxStates, Nat.mod_lt _ (by decide)⟩

theorem nextIdx_slotOf (n : Nat) : nextIdx (slotOf n) = slotOf (n + 1) := by
  have hm : maxStates = 100 := rfl
  simp only [nextIdx]
  split
  next h =>
    apply Fin.ext
    simp only [slotOf, hm] at h ⊢
    omega
  next h =>
    apply Fin.ext
    simp only [slotOf, hm, Fin.val_zero] at h ⊢
    omega

/-- An open client is attached to the slot that the counter had come to when it was accepted. -/
structure Sockets.RoundRobin (k : Sockets) (listens : Nat) : Prop where
  attached : ∀ fd, k.attached fd = (k.accepted fd).map slotOf
  earlier : ∀ fd n, k.accepted fd = some n → n < listens

theorem Sockets.RoundRobin.close (h : Sockets.RoundRobin k n) (fd : Int) :
    Sockets.RoundRobin (k.close fd) n := by
  constructor
  · intro fd'
    by_cases he : fd' = fd
    · subst he
      simp [Sockets.close]
    · simpa [Sockets.close, he] using h.attached fd'
  · intro fd' m hm
    by_cases he : fd' = fd
    · subst he
      simp [Sockets.close] at hm
    · exact h.earlier fd' m (by simpa [Sockets.close, he] using hm)

theorem Sockets.RoundRobin.attach (h : Sockets.RoundRobin k (n + 1)) (fd : Int) :
    Sockets.RoundRobin ((k.openSocket fd).attach fd (slotOf n) n) (n + 1) := by
  constructor
  · intro fd'
    by_cases he : fd' = fd
    · subst he
      simp [Sockets.attach]
    · simpa [Sockets.attach, Sockets.openSocket, he] using h.attached fd'
  · intro fd' m hm
    by_cases he : fd' = fd
    · subst he
      simp only [Sockets.attach, Function.update_self, Option.some.injEq] at hm
      omega
    · exact h.earlier fd' m (by simpa [Sockets.attach, Sockets.openSocket, he] using hm)

structure RoundRobin (s : Sys) : Prop where
  idx : s.connStateIdx = slotOf s.listens
  sockets : s.sockets.RoundRobin s.listens

theorem RoundRobin.listen (h : RoundRobin s) (hl : s.listen accepts = some t) : RoundRobin t := by
  obtain ⟨u, hu, _, hi, hn, _, hs⟩ := listen_cases hl
  have hr : u.sockets.RoundRobin (s.listens + 1) ∧ u.listens = s.listens := by
    apply connectToClient_keeps
      (P := fun u => u.sockets.RoundRobin (s.listens + 1) ∧ u.listens = s.listens) hu
    · exact ⟨⟨h.sockets.attached, fun fd n hn => by have := h.sockets.earlier fd n hn; omega⟩, rfl⟩
    · intro u fd hu _ _
      refine ⟨?_, hu.2⟩
      have ha := hu.1.attach fd
      rw [h.idx]
      change Sockets.RoundRobin ((u.sockets.openSocket fd).attach fd _ u.listens) _
      rw [hu.2]
      exact ha
  constructor
  · rw [hi, hn, h.idx, nextIdx_slotOf]
  · rw [hn]
    rcases hs with hs | ⟨_, hs⟩
    · rw [hs]
      exact hr.1
    · rw [hs]
      exact ⟨hr.1.attached, hr.1.earlier⟩

theorem RoundRobin.step (h : RoundRobin s) (hs : Step listenfd s a t) : RoundRobin t := by
  obtain ⟨hi, hk⟩ := h
  cases hs with
  | listen _ _ _ hl => exact RoundRobin.listen ⟨hi, hk⟩ hl
  | requestError | sendError | responseError => exact ⟨hi, (hk.close _).close _⟩
  | responseEnd | responseDone | deliverError => exact ⟨hi, hk.close _⟩
  | _ => exact ⟨hi, hk.attached, hk.earlier⟩

/-- The listen socket is open, and no slot holds it. -/
structure Listening (listenfd : Int) (s : Sys) : Prop where
  opened : listenfd ∈ s.sockets.opened
  client : ∀ i, (s.connStates i).clientSocketFd ≠ listenfd
  server : ∀ i, (s.connStates i).serverSocketFd ≠ listenfd

theorem Listening.attach (h : Listening listenfd s) (hnew : fd ∉ s.sockets.opened)
    (i : Fin maxStates) : Listening listenfd (s.attach i fd) := by
  have hne : fd ≠ listenfd := fun he => hnew (he ▸ h.opened)
  refine ⟨Finset.mem_insert_of_mem h.opened, fun j => ?_, fun j => ?_⟩
  · by_cases hj : j = i
    · subst hj
      simpa [Sys.attach, Sys.setConn] using hne
    · simpa [Sys.attach, Sys.setConn, hj] using h.client j
  · by_cases hj : j = i
    · subst hj
      simpa [Sys.attach, Sys.setConn] using h.server j
    · simpa [Sys.attach, Sys.setConn, hj] using h.server j

theorem Listening.step (h : Listening listenfd s) (h0 : listenfd ≠ 0)
    (hs : Step listenfd s a t) : Listening listenfd t := by
  have hopened : listenfd ∈ t.sockets.opened :=
    (hs.keeps h.opened (not_touched fun i _ => ⟨(h.client i).symm, (h.server i).symm⟩)).opened
  have hfds : ∀ i, ¬Attaches listenfd s i a → (t.connStates i).clientSocketFd ≠ listenfd ∧
      (t.connStates i).serverSocketFd ≠ listenfd := by
    intro i ha
    obtain ⟨hclient, hserver⟩ := hs.fds ha
    constructor
    · rcases hclient with he | he <;> rw [he]
      · exact h.client i
      · exact h0.symm
    · rcases hserver with he | he | hnew
      · rw [he]
        exact h.server i
      · rw [he]
        exact h0.symm
      · exact fun he => hnew (he ▸ h.opened)
  cases hs with
  | listen _ _ _ hl =>
    obtain ⟨u, hu, hc, _⟩ := listen_cases hl
    have hlistening : Listening listenfd u :=
      connectToClient_keeps hu h fun _ _ hv _ hnew => hv.attach hnew _
    exact ⟨hopened, hc ▸ hlistening.client, hc ▸ hlistening.server⟩
  | skip | dispatch => exact ⟨hopened, h.client, h.server⟩
  | _ => exact ⟨hopened, fun i => (hfds i id).1, fun i => (hfds i id).2⟩

/-- The proxy never closes its listen socket, and never takes it for that of a connection. -/
theorem listening (h : (proxy listenfd fds).Reachable s) (hopen : listenfd ∈ fds)
    (h0 : listenfd ≠ 0) : Listening listenfd s := by
  apply h.invariant (I := Listening listenfd)
  · exact ⟨hopen, fun _ => h0.symm, fun _ => h0.symm⟩
  · intro s a t _ hs _ hn
    exact hs.step h0 (next_step hn)

end Cs324.EpollProxy
