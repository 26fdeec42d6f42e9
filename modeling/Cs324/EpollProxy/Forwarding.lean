import Cs324.EpollProxy.Response

namespace Cs324.EpollProxy
set_option autoImplicit true

/-- The count that the next `read` of a response is called with. -/
def ConnState.responseCount (c : ConnState) : Nat := sizeT (maxObjectSize - c.bytesReadFromServer)

/-- What `read` may give when `response` is all that the server sends before it closes: the next
bytes, or 0 if it is asked for none or the response is at its end. -/
def Gives (response : List UInt8) (c : ConnState) : ReadResult → Prop
  | .data bytes => bytes <+: response.drop c.bytesReadFromServer ∧
      (bytes = [] → c.responseCount = 0 ∨ response.length ≤ c.bytesReadFromServer)
  | .again | .error => True

/-- The slot has not been moved yet, and `read` gives it the response of its server. -/
def FromServer (i : Fin maxStates) (response : List UInt8) (s : Sys) (a : Action) : Prop :=
  (s.connStates i).state = .readRes ∧
    ∀ r, s.pc = .readResponse i → a = .read r → Gives response (s.connStates i) r

/-- `read` returns 0 although it is asked for more: the server has closed. -/
def EndOfFile (i : Fin maxStates) (s : Sys) (a : Action) : Prop :=
  s.pc = .readResponse i ∧ a = .read (.data []) ∧ 0 < (s.connStates i).responseCount

section
variable {i : Fin maxStates} {s t : Sys}

theorem fromServer_of_not_read (hst : (s.connStates i).state = .readRes) (ha : ∀ r, a ≠ .read r) :
    FromServer i response s a ∧ ¬EndOfFile i s a :=
  ⟨⟨hst, fun r _ hr => absurd hr (ha r)⟩, fun h => ha _ h.2.1⟩

/-- While the slot reads the response, `ended` says whether the end of file has come. -/
structure Receiving (i : Fin maxStates) (response : List UInt8) (ended : Prop) (s : Sys) :
    Prop where
  state : (s.connStates i).state = .readRes
  read : (s.connStates i).serverResponse <+: response
  busy : s.pc.slot = some i → s.pc = .readResponse i ∨
    s.pc = .watchClient i ∧ ended ∧ (s.connStates i).response = response

theorem Receiving.other (h : Receiving i response ended s) (hs : Step listenfd s a t)
    (hi : s.pc.slot ≠ some i) : Receiving i response ended t := by
  have hc : ∃ fd, t.connStates i = { s.connStates i with clientSocketFd := fd } := by
    rcases hs.connStates hi with he | ⟨_, hfd⟩
    · exact ⟨_, he⟩
    · exact hfd
  obtain ⟨fd, hc⟩ := hc
  refine ⟨?_, ?_, ?_⟩
  · rw [hc]
    exact h.state
  · rw [hc]
    exact h.read
  · intro ht
    left
    rw [hs.entered hi ht, hc, h.state]
    rfl

/-- The slot holds the whole response, and the end of file has come. -/
structure Received (i : Fin maxStates) (response : List UInt8) (ended : Prop) (s : Sys) : Prop where
  state : (s.connStates i).state = .sendRes
  ended : ended
  whole : (s.connStates i).response = response

theorem Receiving.own (h : Receiving i response ended s) (hsound : (s.connStates i).Sound)
    (hlt : response.length < maxObjectSize) (hfrom : FromServer i response s a)
    (hs : Step listenfd s a t) (hi : s.pc.slot = some i) :
    Receiving i response (ended ∨ EndOfFile i s a) t ∨ Received i response ended t := by
  obtain ⟨hstate, hread, hbusy⟩ := h
  obtain ⟨_, _, hlength, hfits⟩ := hsound
  have hle := hread.length_le
  rcases hbusy hi with hpc | ⟨hpc, hended, hwhole⟩
  · left
    cases hs with
    | @responseData j bytes hpcj hne hn =>
      cases hpc.symm.trans hpcj
      obtain ⟨hbytes, -⟩ := hfrom.2 _ hpc rfl
      refine ⟨?_, ?_, fun _ => .inl hpc⟩ <;> simp only [Sys.setConn, Function.update_self]
      · exact hstate
      · obtain ⟨rest, rfl⟩ := hread
        rw [← hlength, List.drop_left] at hbytes
        rw [← hlength, store_length]
        exact (List.prefix_append_right_inj _).2 hbytes
    | @responseEnd j hpcj =>
      cases hpc.symm.trans hpcj
      obtain ⟨-, hzero⟩ := hfrom.2 _ hpc rfl
      have hcount : (s.connStates i).responseCount =
          maxObjectSize - (s.connStates i).bytesReadFromServer := sizeT_sub hfits le_rfl
      have hall : (s.connStates i).serverResponse = response := by
        apply hread.eq_of_length
        rcases hzero rfl with hzero | hzero <;> omega
      refine ⟨?_, ?_, fun _ => .inr ⟨rfl, .inr ⟨hpc, rfl, by omega⟩, ?_⟩⟩ <;>
        simp only [Sys.setConn, Function.update_self]
      · exact hstate
      · exact hread
      · rw [ConnState.response, ← hlength, List.take_length, hall]
    | @responseAgain j hpcj | @responseError j hpcj =>
      cases hpc.symm.trans hpcj
      refine ⟨?_, ?_, fun hslot => by cases hslot⟩ <;> simp only [Sys.setConn, Function.update_self]
      · exact hstate
      · exact hread
    | watchFails hpcj => simp [hpc] at hpcj
    | _ hpcj => cases hpc.symm.trans hpcj
  · cases hs with
    | @watchClient j hpcj =>
      cases hpc.symm.trans hpcj
      right
      refine ⟨?_, hended, ?_⟩ <;> simp only [Sys.setConn, Function.update_self]
      exact hwhole
    | watchFails => exact .inl ⟨hstate, hread, fun hslot => by cases hslot⟩
    | _ hpcj => cases hpc.symm.trans hpcj

theorem Receiving.mono (h : Receiving i response ended s) (himp : ended → ended') :
    Receiving i response ended' s :=
  ⟨h.state, h.read, fun hi => (h.busy hi).imp_right fun hw => ⟨hw.1, himp hw.2.1, hw.2.2⟩⟩

theorem Receiving.step (h : Receiving i response ended s) (hsound : (s.connStates i).Sound)
    (hlt : response.length < maxObjectSize) (hfrom : FromServer i response s a)
    (hs : Step listenfd s a t) :
    Receiving i response (ended ∨ EndOfFile i s a) t ∨ Received i response ended t := by
  by_cases hi : s.pc.slot = some i
  · exact h.own hsound hlt hfrom hs hi
  · exact .inl ((h.other hs hi).mono .inl)

/-- At some step of the run from `s` the slot comes to the end of file. -/
def Ended (listenfd : Int) (fds : Finset Int) (i : Fin maxStates) (s : Sys)
    (actions : List Action) : Prop :=
  ∃ before a after u, actions = before ++ a :: after ∧
    (proxy listenfd fds).exec s before = some u ∧ EndOfFile i u a

/-- If the run moves the slot to `STATE_SEND_RES`, the end of file has come before, and what is to
be written is the response. -/
def Forwards (listenfd : Int) (fds : Finset Int) (i : Fin maxStates) (response : List UInt8)
    (s : Sys) (actions : List Action) : Prop :=
  ∀ t, (proxy listenfd fds).exec s actions = some t → (t.connStates i).state = .sendRes →
    Ended listenfd fds i s actions ∧ (t.connStates i).response = response

theorem Ended.concat (h : Ended listenfd fds i s actions) (a : Action) :
    Ended listenfd fds i s (actions ++ [a]) := by
  obtain ⟨before, b, after, u, rfl, hu, hend⟩ := h
  exact ⟨before, b, after ++ [a], u, by simp, hu, hend⟩

/-- The whole run, for a response that does not fill the block. -/
theorem receiving_run (h : (proxy listenfd fds).Reachable s)
    (hstart : Receiving i response False s) (hlt : response.length < maxObjectSize)
    (hfrom : (proxy listenfd fds).Along (FromServer i response) s actions)
    (he : (proxy listenfd fds).exec s actions = some t) :
    Receiving i response (Ended listenfd fds i s actions) t ∨
      Received i response (Ended listenfd fds i s actions) t := by
  induction actions using List.reverseRecOn generalizing t with
  | nil =>
    cases he
    exact .inl (hstart.mono False.elim)
  | append_singleton actions a ih =>
    rw [Machine.exec_concat, Option.bind_eq_some_iff] at he
    obtain ⟨u, hu, hn⟩ := he
    have ha := hfrom.concat hu
    have hreach : (proxy listenfd fds).Reachable u := h.exec (Machine.along_true _ _) hu
    rcases ih hfrom.front hu with hr | hr
    · rcases hr.step (staged hreach i).sound hlt ha (next_step hn) with ht | ht
      · refine .inl (ht.mono ?_)
        rintro (hend | hend)
        · exact hend.concat a
        · exact ⟨actions, a, [], u, rfl, hu, hend⟩
      · exact .inr ⟨ht.state, ht.ended.concat a, ht.whole⟩
    · have hstate := hr.state
      rw [ha.1] at hstate
      cases hstate

/-- The response fills the block, and the next `read` is asked for no bytes. -/
def fillBlock (i : Fin maxStates) (response : List UInt8) : List Action :=
  [.event (some i) .none (.of []), .read (.data (response.take maxObjectSize)),
    .read (.data []), .epollCtl true]

theorem next_read (hpc : s.pc = .readResponse i) (r : ReadResult) :
    (proxy listenfd fds).next s (.read r) = s.readResponse i r := by
  simp only [proxy, Sys.next, hpc]

theorem fillBlock_run (hpc : s.pc = .main)
    (hst : (s.connStates i).state = .readRes) (hnew : (s.connStates i).bytesReadFromServer = 0)
    (hfd : (s.connStates i).clientSocketFd ≠ listenfd) (hlong : maxObjectSize ≤ response.length) :
    (proxy listenfd fds).Along (fun u a => FromServer i response u a ∧ ¬EndOfFile i u a) s
      (fillBlock i response) ∧
    ∃ t, (proxy listenfd fds).exec s (fillBlock i response) = some t ∧
      (t.connStates i).state = .sendRes := by
  have hlength : (response.take maxObjectSize).length = maxObjectSize :=
    List.length_take_of_le hlong
  have hne : response.take maxObjectSize ≠ [] := by
    intro hnil
    rw [hnil] at hlength
    cases hlength
  have hcount : (s.connStates i).responseCount = maxObjectSize := by
    rw [ConnState.responseCount, hnew]
    exact sizeT_sub (Nat.zero_le _) le_rfl
  obtain ⟨s₁, hs₁⟩ : ∃ s₁ : Sys, s₁ = { s with pc := .readResponse i } := ⟨_, rfl⟩
  have h₁ : (proxy listenfd fds).next s (.event (some i) .none (.of [])) = some s₁ := by
    simp [proxy, Sys.next, hpc, Sys.handle, Flags.skip, Flags.none, hfd, hst, State.handler, hs₁]
  obtain ⟨s₂, hs₂⟩ : ∃ s₂ : Sys, s₂ = { s₁.setConn i { s.connStates i with
        serverResponse := store (s.connStates i).serverResponse
          (s.connStates i).bytesReadFromServer (response.take maxObjectSize)
        bytesReadFromServer :=
          (s.connStates i).bytesReadFromServer + (response.take maxObjectSize).length } with
      sockets := s.sockets.read (s.connStates i).serverSocketFd (response.take maxObjectSize) } :=
    ⟨_, rfl⟩
  have hconn₁ : s₁.connStates i = s.connStates i := by rw [hs₁]
  have h₂ : (proxy listenfd fds).next s₁ (.read (.data (response.take maxObjectSize))) =
      some s₂ := by
    have hfits : (response.take maxObjectSize).length ≤
        sizeT (maxObjectSize - (s.connStates i).bytesReadFromServer) :=
      (hlength.trans hcount.symm).le
    rw [next_read (by rw [hs₁]), Sys.readResponse, hconn₁]
    simp only [hfits, hne, ↓reduceIte, hs₂]
    rw [hs₁]
  have hconn₂ : (s₂.connStates i).state = .readRes ∧
      (s₂.connStates i).bytesReadFromServer = maxObjectSize := by
    rw [hs₂, hs₁]
    simp [Sys.setConn, hst, hnew, hlength]
  have hpc₂ : s₂.pc = .readResponse i := by
    rw [hs₂, hs₁]
    rfl
  have hfull : (s₂.connStates i).responseCount = 0 := by
    rw [ConnState.responseCount, hconn₂.2]
    exact (sizeT_sub le_rfl le_rfl).trans (Nat.sub_self _)
  obtain ⟨s₃, hs₃⟩ : ∃ s₃ : Sys, s₃ = { s₂.setConn i { s₂.connStates i with
        bytesToWriteClient := (s₂.connStates i).bytesReadFromServer } with
      pc := .watchClient i
      sockets := s₂.sockets.close (s₂.connStates i).serverSocketFd } := ⟨_, rfl⟩
  have h₃ : (proxy listenfd fds).next s₂ (.read (.data [])) = some s₃ := by
    rw [next_read hpc₂, Sys.readResponse]
    simp only [List.length_nil, Nat.zero_le, ↓reduceIte, hs₃]
  have hpc₃ : s₃.pc = .watchClient i := by rw [hs₃]
  have h₄ : (proxy listenfd fds).next s₃ (.epollCtl true) = some (s₃.watch i .sendRes true) := by
    simp only [proxy, Sys.next, hpc₃]
  have hstate : ((s₃.watch i .sendRes true).connStates i).state = .sendRes := by
    simp [Sys.watch, Sys.setConn]
  refine ⟨?_, s₃.watch i .sendRes true, ?_, hstate⟩
  · have hst₃ : (s₃.connStates i).state = .readRes := by
      rw [hs₃]
      simpa [Sys.setConn] using hconn₂.1
    refine Machine.along_of_next (fromServer_of_not_read hst (by simp)) h₁ ?_
    refine Machine.along_of_next ⟨⟨hconn₁.symm ▸ hst, ?_⟩, ?_⟩ h₂ ?_
    · rintro r - ⟨⟩
      refine ⟨?_, fun hnil => absurd hnil hne⟩
      rw [hconn₁, hnew, List.drop_zero]
      exact List.take_prefix _ _
    · rintro ⟨-, hread, -⟩
      rw [Action.read.injEq, ReadResult.data.injEq] at hread
      exact hne hread
    refine Machine.along_of_next ⟨⟨hconn₂.1, ?_⟩, ?_⟩ h₃ ?_
    · rintro r - ⟨⟩
      exact ⟨List.nil_prefix, fun _ => .inl hfull⟩
    · rintro ⟨-, -, hpos⟩
      rw [hfull] at hpos
      cases hpos
    · exact Machine.along_of_next (fromServer_of_not_read hst₃ (by simp)) h₄ trivial
  · rw [fillBlock, Machine.exec_of_next h₁, Machine.exec_of_next h₂, Machine.exec_of_next h₃,
      Machine.exec_of_next h₄, Machine.exec]

theorem Ended.not_along (h : Ended listenfd fds i s actions) :
    ¬(proxy listenfd fds).Along (fun u a => ¬EndOfFile i u a) s actions := by
  intro hnever
  obtain ⟨before, a, after, u, rfl, hu, hend⟩ := h
  rw [List.append_cons] at hnever
  exact hnever.front.concat hu hend

end

/-- A response is forwarded only when all of it has been read, however it comes, if and only if it
does not fill the block. -/
theorem forwards_iff (h : (proxy listenfd fds).Reachable s) (hpc : s.pc = .main)
    (hst : (s.connStates i).state = .readRes) (hnew : (s.connStates i).bytesReadFromServer = 0)
    (hfd : (s.connStates i).clientSocketFd ≠ listenfd) (response : List UInt8) :
    (∀ actions, (proxy listenfd fds).Along (FromServer i response) s actions →
      Forwards listenfd fds i response s actions) ↔ response.length < maxObjectSize := by
  have hsound := (staged h i).sound
  constructor
  · intro hall
    by_contra hlong
    obtain ⟨halong, t, ht, hstate⟩ := fillBlock_run hpc hst hnew hfd (Nat.le_of_not_lt hlong)
    have hended := (hall _ (halong.mono And.left) t ht hstate).1
    exact hended.not_along (halong.mono And.right)
  · intro hlt actions hfrom t he hstate
    have hstart : Receiving i response False s := by
      refine ⟨hst, ?_, ?_⟩
      · rw [List.eq_nil_of_length_eq_zero (hsound.2.2.1.trans hnew)]
        exact List.nil_prefix
      · rw [hpc]
        exact nofun
    rcases receiving_run h hstart hlt hfrom he with hr | hr
    · rw [hr.state] at hstate
      cases hstate
    · exact ⟨hr.ended, hr.whole⟩

def awaitResponse : List Action :=
  [.event none .none (.of [5]), .event (some 0) .none (.of []),
    .read (.data (chars "GET http://a/b HTTP/1.1\r\n\r\n")), .malloc [], .connect (some 6) true,
    .event (some 0) .none (.of []), .write (.count 161), .write (.count 0), .epollCtl true]

theorem exists_awaiting : ∃ s : Sys, (proxy 3 {0, 1, 2, 3, 4}).Reachable s ∧ s.pc = .main ∧
    (s.connStates 0).state = .readRes ∧ (s.connStates 0).bytesReadFromServer = 0 ∧
    (s.connStates 0).clientSocketFd ≠ 3 :=
  Machine.exists_reach_of_exec (proxy 3 {0, 1, 2, 3, 4}) (fun _ _ => True) awaitResponse
    (Machine.along_true _ _) (by decide +kernel)

theorem forwards_hello : ∃ s : Sys, (s.connStates 0).state = .readRes ∧
    ((∀ actions, (proxy 3 {0, 1, 2, 3, 4}).Along (FromServer 0 (chars "hello")) s actions →
      Forwards 3 {0, 1, 2, 3, 4} 0 (chars "hello") s actions) ↔
        (chars "hello").length < maxObjectSize) := by
  obtain ⟨s, h, hpc, hst, hnew, hfd⟩ := exists_awaiting
  exact ⟨s, hst, forwards_iff h hpc hst hnew hfd (chars "hello")⟩

/-- The last byte of this response is never read. -/
theorem forwarded_early : ∃ s : Sys, (proxy 3 {0, 1, 2, 3, 4}).Reachable s ∧ s.pc = .main ∧
    (s.connStates 0).state = .readRes ∧ (s.connStates 0).bytesReadFromServer = 0 ∧
    ∃ actions, (proxy 3 {0, 1, 2, 3, 4}).Along
        (FromServer 0 (List.replicate (maxObjectSize + 1) 120)) s actions ∧
      ¬Forwards 3 {0, 1, 2, 3, 4} 0 (List.replicate (maxObjectSize + 1) 120) s actions := by
  obtain ⟨s, h, hpc, hst, hnew, hfd⟩ := exists_awaiting
  have hlong : maxObjectSize ≤ (List.replicate (maxObjectSize + 1) (120 : UInt8)).length := by
    rw [List.length_replicate]
    exact Nat.le_succ _
  obtain ⟨halong, t, ht, hstate⟩ := fillBlock_run hpc hst hnew hfd hlong
  refine ⟨s, h, hpc, hst, hnew, _, halong.mono And.left, fun hforwards => ?_⟩
  exact (hforwards t ht hstate).1.not_along (halong.mono And.right)

end Cs324.EpollProxy
