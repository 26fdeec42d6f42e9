import Cs324.EpollProxy.Stages

namespace Cs324.EpollProxy
set_option autoImplicit true

/-- A connection in the slot fails: `read` or `write` gives an error other than `EAGAIN`, or the
event has `EPOLLERR` or `EPOLLHUP`. -/
def Fails (s : Sys) (i : Fin maxStates) : Action → Prop
  | .event ptr flags _ => s.pc = .main ∧ ptr = some i ∧ (flags.err ∨ flags.hup)
  | .read .error => s.pc = .readRequest i ∨ s.pc = .readResponse i
  | .write .error => s.pc = .sendRequest i ∨ s.pc = .sendResponse i
  | _ => False

/-- The connection of the client's socket `fd` fails, which is registered with the slot. A call is
made for the client that the slot names, or for any such client if the slot has been cleared. -/
def FailsFor (s : Sys) (i : Fin maxStates) (fd : Int) (a : Action) : Prop :=
  s.sockets.attached fd = some i ∧ Fails s i a ∧
    (s.pc = .main ∨ (s.connStates i).clientSocketFd = fd ∨ (s.connStates i).clientSocketFd = 0)

/-- The server socket, while a connection has one open. -/
def ConnState.serverFds (c : ConnState) : Finset Int :=
  match c.state with
  | .readReq | .sendRes => ∅
  | .sendReq | .readRes => {c.serverSocketFd}

/-- The descriptors that a connection has open in its state. -/
def ConnState.fds (c : ConnState) : Finset Int := insert c.clientSocketFd c.serverFds

/-- A failure closes the descriptors of the connection and no others, and clears the slot. -/
def CleansUp (listenfd : Int) (s : Sys) (a : Action) : Prop :=
  ∀ i fd, FailsFor s i fd a → ∀ t, Sys.next listenfd s a = some t →
    t.sockets.opened = s.sockets.opened \ insert fd (s.connStates i).serverFds ∧
      t.connStates i = initConnState

/-- Connections fail nowhere but in `write` in `STATE_SEND_RES`, for the client that is named in
the slot. -/
def FailsSending (s : Sys) (a : Action) : Prop :=
  ∀ i fd, FailsFor s i fd a → s.pc = .sendResponse i ∧ (s.connStates i).clientSocketFd = fd

/-- The sockets of clients are registered only while they are open. -/
structure Sockets.Registered (k : Sockets) : Prop where
  opened : ∀ fd i, k.attached fd = some i → fd ∈ k.opened
  ne_zero : ∀ fd i, k.attached fd = some i → fd ≠ 0

namespace Sockets.Registered
variable {k : Sockets}

/-- A closed socket is not registered any more. -/
theorem close (h : k.Registered) (old : Int) : (k.close old).Registered := by
  have hne : ∀ fd i, (k.close old).attached fd = some i → fd ≠ old ∧ k.attached fd = some i := by
    intro fd i hatt
    by_cases he : fd = old
    · subst he
      simp [Sockets.close] at hatt
    · simp only [Sockets.close, Function.update_of_ne he] at hatt
      exact ⟨he, hatt⟩
  constructor
  · intro fd i hatt
    obtain ⟨he, hatt⟩ := hne fd i hatt
    exact Finset.mem_erase.2 ⟨he, h.opened fd i hatt⟩
  · intro fd i hatt
    exact h.ne_zero fd i (hne fd i hatt).2

theorem openSocket (h : k.Registered) (new : Int) : (k.openSocket new).Registered :=
  ⟨fun fd i hatt => Finset.mem_insert_of_mem (h.opened fd i hatt), h.ne_zero⟩

theorem attach (h : k.Registered) (hnew : new ∈ k.opened) (hne : new ≠ 0) (i : Fin maxStates)
    (event : Nat) : (k.attach new i event).Registered := by
  constructor <;> intro fd j hatt <;> by_cases he : fd = new
  · exact he ▸ hnew
  · simp only [Sockets.attach, Function.update_of_ne he] at hatt
    exact h.opened fd j hatt
  · exact he ▸ hne
  · simp only [Sockets.attach, Function.update_of_ne he] at hatt
    exact h.ne_zero fd j hatt

end Sockets.Registered

theorem registered_step (h : s.sockets.Registered) (hs : Step listenfd s a t) :
    t.sockets.Registered := by
  cases hs with
  | listen _ _ _ hl =>
    obtain ⟨u, hu, -, -, -, -, hsockets⟩ := listen_cases hl
    have hreg : u.sockets.Registered := by
      apply connectToClient_keeps (P := fun u => u.sockets.Registered) hu h
      intro v fd hv hpos _
      exact (hv.openSocket fd).attach (Finset.mem_insert_self _ _) hpos.ne' _ _
    rcases hsockets with he | ⟨-, he⟩
    · rwa [he]
    · rw [he]
      exact hreg.openSocket 0
  | requestError | sendError | responseError => exact (h.close _).close _
  | responseEnd | responseDone | deliverError => exact h.close _
  | connect | connectUnregistered => exact h.openSocket _
  | _ => exact ⟨h.opened, h.ne_zero⟩

theorem registered_start (listenfd : Int) (fds : Finset Int) :
    (proxy listenfd fds).start.sockets.Registered :=
  ⟨nofun, nofun⟩

section
variable {s t : Sys} {i : Fin maxStates} {fd : Int}

theorem fails_cases (h : Fails s i a) :
    (∃ flags accepts, a = .event (some i) flags accepts ∧ s.pc = .main ∧ flags.skip = true) ∨
      (a = .read .error ∧ (s.pc = .readRequest i ∨ s.pc = .readResponse i)) ∨
      (a = .write .error ∧ (s.pc = .sendRequest i ∨ s.pc = .sendResponse i)) := by
  cases a with
  | event ptr flags accepts =>
    obtain ⟨hpc, rfl, hflags⟩ := h
    have hskip : flags.skip = true := by
      rcases hflags with hflag | hflag <;> simp [Flags.skip, hflag]
    exact .inl ⟨flags, accepts, rfl, hpc, hskip⟩
  | read r =>
    cases r with
    | error => exact .inr (.inl ⟨rfl, h⟩)
    | data | again => exact h.elim
  | write r =>
    cases r with
    | error => exact .inr (.inr ⟨rfl, h⟩)
    | count | again => exact h.elim
  | malloc | connect | epollCtl => exact h.elim

/-- Where a failure cleans up, the client's socket is closed. -/
theorem CleansUp.closed (h : CleansUp listenfd s a) (hf : FailsFor s i fd a)
    (hn : Sys.next listenfd s a = some t) : fd ∉ t.sockets.opened := by
  rw [(h i fd hf t hn).1, Finset.mem_sdiff]
  exact fun hm => hm.2 (Finset.mem_insert_self _ _)

theorem CleansUp.cleared (h : CleansUp listenfd s a) (hf : FailsFor s i fd a)
    (hn : Sys.next listenfd s a = some t) : (t.connStates i).state = .readReq := by
  rw [(h i fd hf t hn).2]
  rfl

/-- A skipped event closes nothing. -/
theorem CleansUp.not_skipped (h : CleansUp listenfd s (.event (some i) flags accepts))
    (hr : s.sockets.Registered) (hf : FailsFor s i fd (.event (some i) flags accepts))
    (hskip : flags.skip = true) : s.pc ≠ .main := by
  intro hpc
  have hn : Sys.next listenfd s (.event (some i) flags accepts) = some s := by
    simp [Sys.next, hpc, Sys.handle, hskip]
  exact h.closed hf hn (hr.opened fd i hf.1)

/-- A failing read of the request leaves the slot as it is, and closes what the slot names. -/
theorem CleansUp.not_readRequest (h : CleansUp listenfd s (.read .error))
    (hr : s.sockets.Registered) (hf : FailsFor s i fd (.read .error)) :
    s.pc ≠ .readRequest i := by
  intro hpc
  have hn : Sys.next listenfd s (.read .error) = some { s with
      pc := .main
      sockets := (s.sockets.close (s.connStates i).clientSocketFd).close
        (s.connStates i).serverSocketFd } := by
    rw [Sys.next.eq_def]
    simp only [hpc]
    rfl
  have hclosed := h.closed hf hn
  have hcleared : s.connStates i = initConnState := (h i fd hf _ hn).2
  rw [hcleared] at hclosed
  -- a slot that is clear names descriptor 0 only
  have hne := hr.ne_zero fd i hf.1
  exact hclosed (Finset.mem_erase.2 ⟨hne, Finset.mem_erase.2 ⟨hne, hr.opened fd i hf.1⟩⟩)

/-- The handlers that talk to the server do not clear the slot when a call fails. -/
theorem CleansUp.not_readResponse (h : CleansUp listenfd s (.read .error)) (hs : Staged s i)
    (hf : FailsFor s i fd (.read .error)) : s.pc ≠ .readResponse i := by
  intro hpc
  have hstate := hs.busy (by rw [hpc]; rfl)
  rw [hpc] at hstate
  have hcleared := h.cleared hf (by simp only [Sys.next, hpc]; rfl)
  simp only [Sys.setConn, Function.update_self] at hcleared
  cases hcleared.symm.trans hstate

theorem CleansUp.not_sendRequest (h : CleansUp listenfd s (.write .error)) (hs : Staged s i)
    (hf : FailsFor s i fd (.write .error)) : s.pc ≠ .sendRequest i := by
  intro hpc
  have hstate := hs.busy (by rw [hpc]; rfl)
  rw [hpc] at hstate
  have hcleared := h.cleared hf (by simp only [Sys.next, hpc]; rfl)
  cases hcleared.symm.trans hstate

/-- Once the slot has been cleared, `send_response` closes descriptor 0. -/
theorem CleansUp.named (h : CleansUp listenfd s (.write .error)) (hr : s.sockets.Registered)
    (hf : FailsFor s i fd (.write .error)) (hpc : s.pc = .sendResponse i) :
    (s.connStates i).clientSocketFd = fd := by
  have hn : Sys.next listenfd s (.write .error) = some { s.setConn i initConnState with
      pc := .main
      sockets := s.sockets.close (s.connStates i).clientSocketFd } := by
    simp only [Sys.next, hpc]
    rfl
  by_contra hne
  exact h.closed hf hn (Finset.mem_erase.2 ⟨Ne.symm hne, hr.opened fd i hf.1⟩)

theorem cleansUp_iff (hs : ∀ i, Staged s i) (hr : s.sockets.Registered) :
    CleansUp listenfd s a ↔ FailsSending s a := by
  constructor
  · intro h i fd hf
    obtain ⟨flags, accepts, rfl, hpc, hskip⟩ | ⟨rfl, hpc | hpc⟩ | ⟨rfl, hpc | hpc⟩ :=
      fails_cases hf.2.1
    · exact absurd hpc (h.not_skipped hr hf hskip)
    · exact absurd hpc (h.not_readRequest hr hf)
    · exact absurd hpc (h.not_readResponse (hs i) hf)
    · exact absurd hpc (h.not_sendRequest (hs i) hf)
    · exact ⟨hpc, h.named hr hf hpc⟩
  · intro h i fd hf t ht
    obtain ⟨hpc, hclient⟩ := h i fd hf
    have hstate := (hs i).busy (by rw [hpc]; rfl)
    rw [hpc] at hstate
    have hst : (s.connStates i).state = .sendRes := hstate
    obtain ⟨_, _, rfl, hother, -⟩ | ⟨rfl, hother | hother⟩ | ⟨rfl, -⟩ := fails_cases hf.2.1
    · cases hpc.symm.trans hother
    · cases hpc.symm.trans hother
    · cases hpc.symm.trans hother
    · simp only [Sys.next, hpc] at ht
      cases ht
      constructor
      · simp [ConnState.serverFds, hst, hclient, Sockets.close, Finset.sdiff_singleton_eq_erase]
      · exact Function.update_self _ _ _

end

/-- Along every run, failures leave nothing behind exactly when all of them are errors of `write`
in `STATE_SEND_RES` for the client that the slot names. -/
theorem failures_clean_up_iff (listenfd : Int) (fds : Finset Int) (actions : List Action) :
    (proxy listenfd fds).Along (CleansUp listenfd) (proxy listenfd fds).start actions ↔
      (proxy listenfd fds).Along FailsSending (proxy listenfd fds).start actions := by
  apply Machine.along_congr (I := fun s => (∀ i, Staged s i) ∧ s.sockets.Registered) _ _ _
    (Machine.along_true _ actions)
  · intro t a u ht _ _ hn
    exact ⟨fun i => (ht.1 i).step (next_step hn), registered_step ht.2 (next_step hn)⟩
  · intro t a ht _
    exact cleansUp_iff ht.1 ht.2
  · exact ⟨staged .start, registered_start listenfd fds⟩

/-- The only client resets its connection before it has sent a request. -/
def resetClient : List Action :=
  [.event none .none (.of [5]), .event (some 0) .none (.of []), .read .error]

/-- Descriptor 0 is closed as well, and the slot still names the closed descriptor 5. -/
theorem failure_closes_zero :
    ((proxy 3 {0, 1, 2, 3, 4}).exec (proxy 3 {0, 1, 2, 3, 4}).start resetClient).map
        (fun s => (s.sockets.opened, (s.connStates 0).clientSocketFd)) = some ({1, 2, 3, 4}, 5) ∧
      ¬(proxy 3 {0, 1, 2, 3, 4}).Along (CleansUp 3) (proxy 3 {0, 1, 2, 3, 4}).start
        resetClient := by
  constructor
  · decide +kernel
  · intro h
    obtain ⟨_, h⟩ := h
    obtain ⟨_, h⟩ := h _ rfl
    obtain ⟨h, _⟩ := h _ rfl
    have hclear := (h 0 5 ⟨by decide +kernel, .inl rfl, .inr (.inl (by decide +kernel))⟩ _ rfl).2
    revert hclear
    decide +kernel

end Cs324.EpollProxy
