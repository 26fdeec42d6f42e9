import Cs324.EpollProxy.Stages

namespace Cs324.EpollProxy
set_option autoImplicit true

def ConnState.response (c : ConnState) : List UInt8 := c.serverResponse.take c.bytesToWriteClient

/-- While the client's socket is open, the slot is not given to another client, the handlers of
other slots do not touch the socket, and `write` to the client gives no error but `EAGAIN`. -/
def Undisturbed (listenfd : Int) (i : Fin maxStates) (fd : Int) (s : Sys) (a : Action) : Prop :=
  fd ∈ s.sockets.opened ∧ ¬Attaches listenfd s i a ∧ (s.pc.slot ≠ some i → fd ∉ s.touched a) ∧
    ¬(s.pc = .sendResponse i ∧ a = .write .error)

/-- Since `s₀` the client's socket has taken the whole response in the slot and no more, and the
socket is closed and the slot cleared. -/
def Delivered (i : Fin maxStates) (s₀ t : Sys) : Prop :=
  let fd := (s₀.connStates i).clientSocketFd
  t.sockets.sent fd = s₀.sockets.sent fd ++ (s₀.connStates i).response ∧
    fd ∉ t.sockets.opened ∧ t.connStates i = initConnState

/-- What the step from `s` to `t` does with the response that the slot has held since `s₀`. The
client's socket has taken a prefix of it, and the socket is closed and the slot cleared only
together, when it has taken all. An event for the slot calls the handler, each `write` takes as many
bytes more as it says, and the handler returns when none are left. -/
structure DeliversBy (listenfd : Int) (i : Fin maxStates) (s₀ s : Sys) (a : Action) (t : Sys) :
    Prop where
  grows : s₀.sockets.sent (s₀.connStates i).clientSocketFd <+:
    t.sockets.sent (s₀.connStates i).clientSocketFd
  sent : t.sockets.sent (s₀.connStates i).clientSocketFd <+:
    s₀.sockets.sent (s₀.connStates i).clientSocketFd ++ (s₀.connStates i).response
  ended : (s₀.connStates i).clientSocketFd ∉ t.sockets.opened ∨
      (s.connStates i).clientSocketFd = (s₀.connStates i).clientSocketFd ∧
        t.connStates i = initConnState → Delivered i s₀ t
  called : ∀ flags accepts, s.pc = .main →
    (s.connStates i).clientSocketFd = (s₀.connStates i).clientSocketFd →
    (s₀.connStates i).clientSocketFd ≠ listenfd → a = .event (some i) flags accepts →
    flags.skip = false → t.pc = .sendResponse i
  counted : ∀ n, s.pc = .sendResponse i →
    (s.connStates i).clientSocketFd = (s₀.connStates i).clientSocketFd → a = .write (.count n) →
    (t.sockets.sent (s₀.connStates i).clientSocketFd).length =
        (s.sockets.sent (s₀.connStates i).clientSocketFd).length + n ∧
      if n = 0 then Delivered i s₀ t else t.pc = .sendResponse i

def Delivers (listenfd : Int) (i : Fin maxStates) (s₀ s : Sys) (a : Action) : Prop :=
  ∀ t, Sys.next listenfd s a = some t → DeliversBy listenfd i s₀ s a t

/-- Whatever counts `write` gives from here on, it is called at most once for each byte and once
more, and while it has not been called for the last time another count is possible. After that the
response is delivered. -/
def Completes (listenfd : Int) (fds : Finset Int) (i : Fin maxStates) (s₀ t : Sys) : Prop :=
  ∀ (counts : List Nat) u,
    (proxy listenfd fds).exec t (counts.map fun n => .write (.count n)) = some u →
      counts.length ≤ (s₀.connStates i).response.length + 1 ∧
        (u.pc = .sendResponse i ∧ (∃ n, (Sys.next listenfd u (.write (.count n))).isSome) ∨
          Delivered i s₀ u)

/-- `write` does not give `EAGAIN` for the client's socket. -/
def NotBlocked (i : Fin maxStates) (fd : Int) (s : Sys) (a : Action) : Prop :=
  ¬(s.pc = .sendResponse i ∧ (s.connStates i).clientSocketFd = fd ∧ a = .write .again)

/-- `write` does not give `EAGAIN` before the client has taken the whole response. -/
def NotCutOff (i : Fin maxStates) (fd : Int) (s : Sys) (a : Action) : Prop :=
  ¬(s.pc = .sendResponse i ∧ (s.connStates i).clientSocketFd = fd ∧ a = .write .again ∧
    (s.connStates i).bytesWrittenToClient < (s.connStates i).bytesToWriteClient)

instance : Decidable (Undisturbed listenfd i fd s a) := by
  unfold Undisturbed
  infer_instance

instance : Decidable (NotBlocked i fd s a) := by
  unfold NotBlocked
  infer_instance

instance : Decidable (NotCutOff i fd s a) := by
  unfold NotCutOff
  infer_instance

structure Sending (i : Fin maxStates) (fd : Int) (earlier response : List UInt8) (s : Sys) :
    Prop where
  client : (s.connStates i).clientSocketFd = fd
  state : (s.connStates i).state = .sendRes
  held : (s.connStates i).serverResponse = response
  toWrite : (s.connStates i).bytesToWriteClient = response.length
  written : (s.connStates i).bytesWrittenToClient ≤ response.length
  sent : s.sockets.sent fd = earlier ++ response.take (s.connStates i).bytesWrittenToClient
  busy : s.pc.slot = some i → s.pc = .sendResponse i

/-- The slot has sent the response and let go of the client's socket. -/
structure Sent (i : Fin maxStates) (fd : Int) (earlier response : List UInt8) (s : Sys) :
    Prop where
  client : fd ≠ (s.connStates i).clientSocketFd
  sent : s.sockets.sent fd = earlier ++ response

section
variable {s t : Sys} {i : Fin maxStates} {fd : Int}

theorem Sending.other (h : Sending i fd earlier response s)
    (hu : Undisturbed listenfd i fd s a) (hs : Step listenfd s a t) (hi : s.pc.slot ≠ some i) :
    Sending i fd earlier response t ∧ fd ∈ t.sockets.opened := by
  obtain ⟨hopen, hatt, hother, _⟩ := hu
  have hc : t.connStates i = s.connStates i := (hs.connStates hi).resolve_right fun he => hatt he.1
  have hk : s.sockets.Keeps t.sockets fd := hs.keeps hopen (hother hi)
  obtain ⟨h₁, h₂, h₃, h₄, h₅, h₆, _⟩ := h
  constructor
  · constructor <;> try rw [hc]
    · exact h₁
    · exact h₂
    · exact h₃
    · exact h₄
    · exact h₅
    · rw [hk.sent]
      exact h₆
    · intro ht
      rw [hs.entered hi ht, hc, h₂]
      rfl
  · exact hk.opened

theorem sendResponse_cases (hpc : s.pc = .sendResponse i) (hs : Step listenfd s a t) :
    (∃ n, a = .write (.count n)) ∨
      (a = .write .again ∧ t = { s.setConn i initConnState with pc := .main }) ∨
      a = .write .error := by
  cases hs with
  | responseSent | responseDone => exact .inl ⟨_, rfl⟩
  | deliverAgain hpcj =>
    cases hpc.symm.trans hpcj
    exact .inr (.inl ⟨rfl, rfl⟩)
  | deliverError => exact .inr (.inr rfl)
  | watchFails hpcj => simp [hpc] at hpcj
  | _ hpcj => cases hpc.symm.trans hpcj

/-- Each `write` that takes something takes the next bytes of the response. -/
theorem Sending.wrote (h : Sending i fd earlier response s)
    (hfits : response.length ≤ maxObjectSize) (hpc : s.pc = .sendResponse i) (hpos : 0 < n)
    (hs : Step listenfd s (.write (.count n)) t) :
    Sending i fd earlier response t ∧ t.pc = .sendResponse i ∧
      t.sockets.opened = s.sockets.opened ∧
      (t.connStates i).bytesWrittenToClient = (s.connStates i).bytesWrittenToClient + n := by
  obtain ⟨hclient, hstate, hheld, hto, hwritten, hsent, -⟩ := h
  cases hs with
  | @responseSent j _ hpcj _ hcount =>
    cases hpc.symm.trans hpcj
    rw [hto, sizeT_sub hwritten hfits] at hcount
    refine ⟨⟨?_, ?_, ?_, ?_, ?_, ?_, fun _ => hpc⟩, hpc, rfl, ?_⟩ <;>
      simp only [Sys.setConn, Function.update_self]
    · exact hclient
    · exact hstate
    · exact hheld
    · exact hto
    · omega
    · have htake : response.take (s.connStates i).bytesWrittenToClient ++
          load response (s.connStates i).bytesWrittenToClient n =
          response.take ((s.connStates i).bytesWrittenToClient + n) :=
        take_append_load (by omega)
      simp only [Sockets.write, hclient, hheld, Function.update_self, hsent]
      rw [List.append_assoc, htake]
  | responseDone => exact absurd hpos (Nat.lt_irrefl 0)
  | requestSent hpcj | requestDone hpcj => cases hpc.symm.trans hpcj

/-- The last `write`, for no bytes, comes when all of the response has been taken. -/
theorem Sending.done (h : Sending i fd earlier response s)
    (hfits : response.length ≤ maxObjectSize) (hpc : s.pc = .sendResponse i)
    (hs : Step listenfd s (.write (.count 0)) t) :
    t.sockets.sent fd = earlier ++ response ∧ s.sockets.sent fd = t.sockets.sent fd ∧
      fd ∉ t.sockets.opened ∧ t.connStates i = initConnState ∧ t.pc = .main := by
  obtain ⟨hclient, -, -, hto, hwritten, hsent, -⟩ := h
  cases hs with
  | @responseDone j hpcj hcount =>
    cases hpc.symm.trans hpcj
    rw [hto, sizeT_sub hwritten hfits] at hcount
    have hall : s.sockets.sent fd = earlier ++ response := by
      rw [hsent, List.take_of_length_le (by omega)]
    refine ⟨hall, rfl, ?_, Function.update_self _ _ _, rfl⟩
    rw [hclient]
    exact Finset.notMem_erase _ _
  | responseSent _ hpos => exact absurd hpos (Nat.lt_irrefl 0)
  | requestSent hpcj | requestDone hpcj => cases hpc.symm.trans hpcj

theorem Sending.own (h : Sending i fd earlier response s) (hfd : fd ≠ 0)
    (hfits : response.length ≤ maxObjectSize) (hu : Undisturbed listenfd i fd s a)
    (hn : NotCutOff i fd s a) (hs : Step listenfd s a t) (hi : s.pc.slot = some i) :
    Sending i fd earlier response t ∧ fd ∈ t.sockets.opened ∨ Sent i fd earlier response t := by
  obtain ⟨hopen, _, _, herror⟩ := hu
  have hpc := h.busy hi
  have hcleared {t : Sys} (hc : t.connStates i = initConnState)
      (hsent : t.sockets.sent fd = earlier ++ response) : Sent i fd earlier response t :=
    ⟨by rw [hc]; exact hfd, hsent⟩
  obtain ⟨n, rfl⟩ | ⟨rfl, rfl⟩ | rfl := sendResponse_cases hpc hs
  · rcases Nat.eq_zero_or_pos n with rfl | hpos
    · obtain ⟨hsent, -, -, hinit, -⟩ := h.done hfits hpc hs
      exact .inr (hcleared hinit hsent)
    · obtain ⟨ht, -, hsame, -⟩ := h.wrote hfits hpc hpos hs
      exact .inl ⟨ht, hsame ▸ hopen⟩
  · have hall : response.length ≤ (s.connStates i).bytesWrittenToClient := by
      rw [← h.toWrite]
      by_contra hlt
      exact hn ⟨hpc, h.client, rfl, by omega⟩
    right
    apply hcleared (Function.update_self _ _ _)
    exact h.sent.trans (by rw [List.take_of_length_le hall])
  · exact absurd ⟨hpc, rfl⟩ herror

theorem sending_start (hstaged : Staged s i) (hpc : s.pc = .main)
    (hst : (s.connStates i).state = .sendRes) :
    Sending i (s.connStates i).clientSocketFd (s.sockets.sent (s.connStates i).clientSocketFd)
        (s.connStates i).response s ∧
      (s.connStates i).response.length ≤ maxObjectSize := by
  have hzero := hstaged.unsent (by rw [hpc]; nofun) hst
  obtain ⟨hto, _⟩ := hstaged.atStage hpc nofun nofun hst
  obtain ⟨_, _, hlen, hfits⟩ := hstaged.sound
  have hresponse : (s.connStates i).response = (s.connStates i).serverResponse := by
    rw [ConnState.response, hto, ← hlen, List.take_length]
  constructor
  · refine ⟨rfl, hst, hresponse.symm, ?_, ?_, ?_, ?_⟩
    · rw [hresponse, hto, hlen]
    · rw [hzero]
      exact Nat.zero_le _
    · rw [hzero, List.take_zero, List.append_nil]
    · intro hs
      rw [hpc] at hs
      cases hs
  · rw [hresponse, hlen]
    exact hfits

end

/-- Since `s₀` the slot has been sending its response, or it has delivered it. -/
def Delivering (i : Fin maxStates) (s₀ s : Sys) : Prop :=
  let fd := (s₀.connStates i).clientSocketFd
  Sending i fd (s₀.sockets.sent fd) (s₀.connStates i).response s ∨ Delivered i s₀ s

section
variable {s₀ s t : Sys} {i : Fin maxStates}

/-- Whatever else a step does that leaves the slot sending, it neither closes the socket nor clears
the slot. -/
theorem Sending.deliversBy (h : Sending i fd (s₀.sockets.sent fd) (s₀.connStates i).response t)
    (hclient : (s₀.connStates i).clientSocketFd = fd) (hfd : fd ≠ 0) (hopen : fd ∈ t.sockets.opened)
    (hcalled : ∀ flags accepts, s.pc = .main → (s.connStates i).clientSocketFd = fd →
      fd ≠ listenfd → a = .event (some i) flags accepts → flags.skip = false →
      t.pc = .sendResponse i)
    (hcounted : ∀ n, s.pc = .sendResponse i → a = .write (.count n) → n ≠ 0 ∧
      (t.sockets.sent fd).length = (s.sockets.sent fd).length + n ∧ t.pc = .sendResponse i) :
    DeliversBy listenfd i s₀ s a t := by
  subst hclient
  constructor
  · rw [h.sent]
    exact List.prefix_append _ _
  · rw [h.sent, List.prefix_append_right_inj]
    exact List.take_prefix _ _
  · rintro (hc | ⟨_, hc⟩)
    · exact absurd hopen hc
    · have hclient := h.client
      rw [hc] at hclient
      exact absurd hclient.symm hfd
  · exact hcalled
  · intro n hpc _ ha
    obtain ⟨hn, hlength, ht⟩ := hcounted n hpc ha
    exact ⟨hlength, by rwa [if_neg hn]⟩

/-- When `write` is called for the last time, the response is delivered. -/
theorem Delivered.deliversBy (h : Delivered i s₀ t) (hpc : s.pc = .sendResponse i)
    (hsame : s.sockets.sent (s₀.connStates i).clientSocketFd =
      t.sockets.sent (s₀.connStates i).clientSocketFd) :
    DeliversBy listenfd i s₀ s (.write (.count 0)) t := by
  have hsent : t.sockets.sent (s₀.connStates i).clientSocketFd = _ := h.1
  constructor
  · rw [hsent]
    exact List.prefix_append _ _
  · rw [hsent]
  · exact fun _ => h
  · intro _ _ hmain
    cases hpc.symm.trans hmain
  · rintro n _ _ ⟨⟩
    exact ⟨by rw [hsame, Nat.add_zero], h⟩

theorem Delivering.step (h : Delivering i s₀ s) (hfd : (s₀.connStates i).clientSocketFd ≠ 0)
    (hfits : (s₀.connStates i).response.length ≤ maxObjectSize)
    (hu : Undisturbed listenfd i (s₀.connStates i).clientSocketFd s a)
    (hn : NotBlocked i (s₀.connStates i).clientSocketFd s a) (hs : Step listenfd s a t) :
    Delivering i s₀ t ∧ DeliversBy listenfd i s₀ s a t := by
  obtain ⟨hopen, _, _, herror⟩ := id hu
  rcases h with h | h
  · by_cases hi : s.pc.slot = some i
    · have hpc := h.busy hi
      obtain ⟨n, rfl⟩ | ⟨rfl, -⟩ | rfl := sendResponse_cases hpc hs
      · rcases Nat.eq_zero_or_pos n with rfl | hpos
        · obtain ⟨hsent, hsame, hclosed, hinit, -⟩ := h.done hfits hpc hs
          have hdelivered : Delivered i s₀ t := ⟨hsent, hclosed, hinit⟩
          exact ⟨.inr hdelivered, hdelivered.deliversBy hpc hsame⟩
        · obtain ⟨ht, htpc, hsame, hcount⟩ := h.wrote hfits hpc hpos hs
          refine ⟨.inl ht, ht.deliversBy rfl hfd (hsame ▸ hopen) ?_ ?_⟩
          · intro _ _ hmain
            cases hpc.symm.trans hmain
          · rintro m _ ⟨⟩
            refine ⟨hpos.ne', ?_, htpc⟩
            have hle := ht.written
            rw [hcount] at hle
            rw [ht.sent, h.sent, hcount]
            simp only [List.length_append, List.length_take]
            omega
      · exact absurd ⟨hpc, h.client, rfl⟩ hn
      · exact absurd ⟨hpc, rfl⟩ herror
    · obtain ⟨ht, hopen'⟩ := h.other hu hs hi
      refine ⟨.inl ht, ht.deliversBy rfl hfd hopen' ?_ ?_⟩
      · rintro flags accepts _ hclient hne rfl hskip
        cases hs with
        | skip _ hf => cases hskip.symm.trans hf
        | listen _ _ hptr => exact absurd (hclient.symm.trans hptr) hne
        | dispatch =>
          rw [h.state]
          rfl
      · rintro n hpc
        exact absurd (by rw [hpc]; rfl) hi
  · exact absurd hopen h.2.1

/-- `EAGAIN` clears the slot and leaves the socket open. -/
theorem Delivers.notBlocked (hd : Delivers listenfd i s₀ s a)
    (hopen : (s₀.connStates i).clientSocketFd ∈ s.sockets.opened) :
    NotBlocked i (s₀.connStates i).clientSocketFd s a := by
  rintro ⟨hpc, hclient, rfl⟩
  have ht := hd { s.setConn i initConnState with pc := .main } (by simp only [Sys.next, hpc]; rfl)
  exact (ht.ended (.inr ⟨hclient, Function.update_self _ _ _⟩)).2.1 hopen

/-- The socket may always take all that it is given. -/
theorem sendResponse_enabled (hpc : s.pc = .sendResponse i) (listenfd : Int) :
    ∃ n, (Sys.next listenfd s (.write (.count n))).isSome := by
  refine ⟨sizeT ((s.connStates i).bytesToWriteClient - (s.connStates i).bytesWrittenToClient), ?_⟩
  simp only [Sys.next, hpc, Sys.sendResponse]
  rw [if_pos ⟨le_rfl, id⟩]
  split <;> rfl

theorem Sending.completes {counts : List Nat}
    (h : Sending i fd (s₀.sockets.sent fd) (s₀.connStates i).response t)
    (hclient : (s₀.connStates i).clientSocketFd = fd)
    (hfits : (s₀.connStates i).response.length ≤ maxObjectSize) (hpc : t.pc = .sendResponse i)
    (hexec : (proxy listenfd fds).exec t (counts.map fun n => .write (.count n)) = some u) :
    counts.length + (t.connStates i).bytesWrittenToClient ≤
        (s₀.connStates i).response.length + 1 ∧
      (u.pc = .sendResponse i ∧ (∃ n, (Sys.next listenfd u (.write (.count n))).isSome) ∨
        Delivered i s₀ u) := by
  induction counts generalizing t with
  | nil =>
    cases hexec
    refine ⟨?_, .inl ⟨hpc, sendResponse_enabled hpc listenfd⟩⟩
    rw [List.length_nil, Nat.zero_add]
    exact h.written.trans (Nat.le_succ _)
  | cons n counts ih =>
    rw [List.map_cons, Machine.exec_cons, Option.bind_eq_some_iff] at hexec
    obtain ⟨v, hv, hexec⟩ := hexec
    have hs := next_step hv
    rcases Nat.eq_zero_or_pos n with rfl | hpos
    · obtain ⟨hsent, -, hclosed, hinit, hmain⟩ := h.done hfits hpc hs
      -- `main` goes on, and no other count can come
      cases counts with
      | nil =>
        cases hexec
        subst hclient
        refine ⟨?_, .inr ⟨hsent, hclosed, hinit⟩⟩
        have hle := h.written
        simp only [List.length_cons, List.length_nil]
        omega
      | cons m counts =>
        rw [List.map_cons, Machine.exec_cons] at hexec
        simp [proxy, Sys.next, hmain] at hexec
    · obtain ⟨hv', hvpc, -, hcount⟩ := h.wrote hfits hpc hpos hs
      obtain ⟨hlength, hend⟩ := ih hv' hvpc hexec
      refine ⟨?_, hend⟩
      rw [List.length_cons]
      omega

theorem delivers_iff (h : (proxy listenfd fds).Reachable s) (hpc : s.pc = .main)
    (hst : (s.connStates i).state = .sendRes) (hfd : (s.connStates i).clientSocketFd ≠ 0)
    (hrun : (proxy listenfd fds).Along
      (Undisturbed listenfd i (s.connStates i).clientSocketFd) s actions) :
    (proxy listenfd fds).Along (Delivers listenfd i s) s actions ↔
      (proxy listenfd fds).Along (NotBlocked i (s.connStates i).clientSocketFd) s actions := by
  obtain ⟨hstart, hfits⟩ := sending_start (staged h i) hpc hst
  apply Machine.along_congr (I := Delivering i s) _ _ (.inl hstart) hrun
  · intro t a u ht hu hd hn
    exact (ht.step hfd hfits hu (hd.notBlocked hu.1) (next_step hn)).1
  · intro t a ht hu
    constructor
    · exact fun hd => hd.notBlocked hu.1
    · intro hn u hu'
      exact (ht.step hfd hfits hu hn (next_step hu')).2

end

/-- From any state in which a slot holds a response for a client, along every run in which the
slot and the socket are left alone: the client gets exactly the response, before the slot is
cleared and the socket closed, and whenever the handler runs it can be completed by every sequence
of counts, if and only if `write` gives no `EAGAIN`. -/
theorem response_delivered_iff (h : (proxy listenfd fds).Reachable s) (hpc : s.pc = .main)
    (hst : (s.connStates i).state = .sendRes) (hfd : (s.connStates i).clientSocketFd ≠ 0)
    (hrun : (proxy listenfd fds).Along
      (Undisturbed listenfd i (s.connStates i).clientSocketFd) s actions) :
    ((proxy listenfd fds).Along (Delivers listenfd i s) s actions ∧
        ∀ t, (proxy listenfd fds).exec s actions = some t → t.pc = .sendResponse i →
          (t.connStates i).clientSocketFd = (s.connStates i).clientSocketFd →
          Completes listenfd fds i s t) ↔
      (proxy listenfd fds).Along (NotBlocked i (s.connStates i).clientSocketFd) s actions := by
  have hiff := delivers_iff h hpc hst hfd hrun
  refine ⟨fun hd => hiff.1 hd.1, fun hn => ⟨hiff.2 hn, ?_⟩⟩
  intro t ht hpct hclient counts u hu
  obtain ⟨hstart, hfits⟩ := sending_start (staged h i) hpc hst
  have hboth := hrun.and hn
  have hdelivering : Delivering i s t := by
    apply Machine.exec_invariant (I := Delivering i s) (.inl hstart) _ hboth ht
    intro v a w hv hok hw
    exact (hv.step hfd hfits hok.1 hok.2 (next_step hw)).1
  rcases hdelivering with hsending | hdelivered
  · obtain ⟨hlength, hend⟩ := hsending.completes rfl hfits hpct hu
    exact ⟨(Nat.le_add_right _ _).trans hlength, hend⟩
  · -- the slot would be clear
    rw [hdelivered.2.2] at hclient
    exact absurd hclient.symm hfd

def respond : List Action :=
  [.event none .none (.of [5]), .event (some 0) .none (.of []),
    .read (.data (chars "GET http://a/b HTTP/1.1\r\n\r\n")), .malloc [], .connect (some 6) true,
    .event (some 0) .none (.of []), .write (.count 161), .write (.count 0), .epollCtl true,
    .event (some 0) .none (.of []), .read (.data (chars "HTTP/1.0 200 OK\r\n\r\nhello")),
    .read (.data []), .epollCtl true]

/-- The client takes the response in two pieces. -/
def taken : List Action :=
  .event (some 0) .none (.of []) :: [10, 14, 0].map fun n => .write (.count n)

theorem response_delivered_taken : ∃ s t : Sys, (s.connStates 0).response.length = 24 ∧
    (proxy 3 {0, 1, 2, 3, 4}).exec s taken = some t ∧ Delivered 0 s t := by
  obtain ⟨s, hr, hpc, hst, hfd, hlen, hu, hn, hcalled, hmain⟩ := Machine.exists_reach_of_exec
    (proxy 3 {0, 1, 2, 3, 4}) (fun _ _ => True) respond
    (P := fun s => s.pc = .main ∧ (s.connStates 0).state = .sendRes ∧
      (s.connStates 0).clientSocketFd = 5 ∧ (s.connStates 0).response.length = 24 ∧
      (proxy 3 {0, 1, 2, 3, 4}).Along (Undisturbed 3 0 5) s (taken.take 1) ∧
      (proxy 3 {0, 1, 2, 3, 4}).Along (NotBlocked 0 5) s (taken.take 1) ∧
      ((proxy 3 {0, 1, 2, 3, 4}).exec s (taken.take 1)).map
        (fun t => (t.pc, (t.connStates 0).clientSocketFd)) = some (.sendResponse 0, 5) ∧
      ((proxy 3 {0, 1, 2, 3, 4}).exec s taken).map Sys.pc = some .main)
    (Machine.along_true _ _) (by decide +kernel)
  have hne : (s.connStates 0).clientSocketFd ≠ 0 := by
    rw [hfd]
    decide
  obtain ⟨t, ht, htpc⟩ := Option.map_eq_some_iff.1 hcalled
  obtain ⟨u, hexec, hupc⟩ := Option.map_eq_some_iff.1 hmain
  have hu' : (proxy 3 {0, 1, 2, 3, 4}).exec t ([10, 14, 0].map fun n => .write (.count n)) =
      some u := by
    rw [← hexec, ← List.take_append_drop 1 taken, Machine.exec_append, ht]
    rfl
  rw [← hfd] at hu hn htpc
  obtain ⟨-, hcompletes⟩ := (response_delivered_iff hr hpc hst hne hu).2 hn
  obtain ⟨-, ⟨hbusy, -⟩ | hdelivered⟩ :=
    hcompletes t ht (congrArg Prod.fst htpc) (congrArg Prod.snd htpc) [10, 14, 0] u hu'
  · cases hupc.symm.trans hbusy
  · exact ⟨s, u, hlen, hexec, hdelivered⟩

/-- The client's socket is full after 10 bytes. -/
def blocked : List Action :=
  [.event (some 0) .none (.of []), .write (.count 10), .write .again]

/-- The slot is cleared, and the rest of the response is lost. -/
theorem response_lost : ∃ s : Sys, (proxy 3 {0, 1, 2, 3, 4}).Reachable s ∧
    (s.connStates 0).response.length = 24 ∧ s.sockets.sent 5 = [] ∧
    ((proxy 3 {0, 1, 2, 3, 4}).exec s blocked).map (fun t => ((t.sockets.sent 5).length,
      decide (5 ∈ t.sockets.opened), (t.connStates 0).clientSocketFd)) = some (10, true, 0) ∧
    (proxy 3 {0, 1, 2, 3, 4}).Along (Undisturbed 3 0 5) s blocked ∧
    ¬(proxy 3 {0, 1, 2, 3, 4}).Along (Delivers 3 0 s) s blocked := by
  obtain ⟨s, hr, hpc, hst, hfd, hlen, hsent, hexec, hu, hn⟩ := Machine.exists_reach_of_exec
    (proxy 3 {0, 1, 2, 3, 4}) (fun _ _ => True) respond
    (P := fun s => s.pc = .main ∧ (s.connStates 0).state = .sendRes ∧
      (s.connStates 0).clientSocketFd = 5 ∧ (s.connStates 0).response.length = 24 ∧
      s.sockets.sent 5 = [] ∧
      ((proxy 3 {0, 1, 2, 3, 4}).exec s blocked).map (fun t => ((t.sockets.sent 5).length,
        decide (5 ∈ t.sockets.opened), (t.connStates 0).clientSocketFd)) = some (10, true, 0) ∧
      (proxy 3 {0, 1, 2, 3, 4}).Along (Undisturbed 3 0 5) s blocked ∧
      ¬(proxy 3 {0, 1, 2, 3, 4}).Along (NotBlocked 0 5) s blocked)
    (Machine.along_true _ _) (by decide +kernel)
  have hne : (s.connStates 0).clientSocketFd ≠ 0 := by
    rw [hfd]
    decide
  refine ⟨s, hr, hlen, hsent, hexec, hu, ?_⟩
  rw [← hfd] at hu hn
  rwa [delivers_iff hr hpc hst hne hu]

end Cs324.EpollProxy
