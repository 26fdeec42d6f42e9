import Cs324.EpollProxy.Steps

namespace Cs324.EpollProxy
set_option autoImplicit true

/-- The two blocks that are read into have as many bytes as their counters say. -/
def ConnState.Sound (c : ConnState) : Prop :=
  c.clientRequest.length = c.bytesReadFromClient ∧ c.bytesReadFromClient ≤ maxObjectSize ∧
    c.serverResponse.length = c.bytesReadFromServer ∧ c.bytesReadFromServer ≤ maxObjectSize

/-- `server_request` has been built and fits its block. -/
def ConnState.Rewritten (c : ConnState) : Prop :=
  blankLine <:+: c.clientRequest ∧ c.bytesToWriteServer = (cstring c.serverRequest).length ∧
    c.serverRequest.length < maxObjectSize

/-- What holds of a slot in each state between two events. -/
def ConnState.AtStage (c : ConnState) : State → Prop
  | .readReq =>
    c.serverRequest = [] ∧ c.bytesToWriteServer = 0 ∧ c.bytesWrittenToServer = 0 ∧
      c.bytesReadFromServer = 0 ∧ c.bytesToWriteClient = 0 ∧ c.bytesWrittenToClient = 0
  | .sendReq =>
    c.Rewritten ∧ c.bytesWrittenToServer ≤ c.bytesToWriteServer ∧ c.bytesWrittenToClient = 0
  | .readRes => c.bytesWrittenToServer = c.bytesToWriteServer ∧ c.bytesWrittenToClient = 0
  | .sendRes => c.bytesToWriteClient = c.bytesReadFromServer ∧
      c.bytesWrittenToClient ≤ c.bytesToWriteClient

/-- What holds of the slot that is being handled. -/
def Pc.Holds (c : ConnState) : Pc → Prop
  | .readRequest _ => c.state = .readReq
  | .rewriting _ => c.state = .readReq ∧ isCompleteRequest c.requestString
  | .connecting _ => c.Rewritten ∧ c.bytesWrittenToServer = 0 ∧ c.bytesWrittenToClient = 0
  | .sendRequest _ => c.state = .sendReq
  | .watchServer _ => c.state = .sendReq ∧ c.bytesWrittenToServer = c.bytesToWriteServer
  | .readResponse _ => c.state = .readRes
  | .watchClient _ => c.state = .readRes ∧ c.bytesToWriteClient = c.bytesReadFromServer
  | .sendResponse _ => c.state = .sendRes
  | .main | .exited | .undefined => True

/-- The invariant of a slot. Only while `connect_to_server` runs for it is it between two states. -/
structure Staged (s : Sys) (i : Fin maxStates) : Prop where
  sound : (s.connStates i).Sound
  stage : s.pc ≠ .connecting i → s.pc ≠ .exited →
    (s.connStates i).AtStage (s.connStates i).state
  busy : s.pc.slot = some i → s.pc.Holds (s.connStates i)
  unsent : s.pc ≠ .sendResponse i → (s.connStates i).state = .sendRes →
    (s.connStates i).bytesWrittenToClient = 0

theorem sizeT_sub (hr : n ≤ m) (hm : m ≤ maxObjectSize) : sizeT ((m : Int) - n) = m - n := by
  have : maxObjectSize = 102400 := rfl
  rw [sizeT_eq] <;> omega

theorem Rewritten.of_reformat (h : reformatClientRequest block c = some c')
    (hc : isCompleteRequest c.requestString) (he : c.serverRequest = []) : c'.Rewritten := by
  obtain ⟨t, _, hl, rfl⟩ := reformatClientRequest_some h hc
  refine ⟨?_, rfl, hl⟩
  have hs : cstring c.clientRequest = c.requestString := by
    simp [ConnState.requestString, he]
  rw [isCompleteRequest, strstr_isSome, ← hs] at hc
  exact hc.trans (List.takeWhile_prefix _).isInfix

theorem ConnState.AtStage.client {c : ConnState} {st : State} (h : c.AtStage st) (fd : Int) :
    { c with clientSocketFd := fd }.AtStage st := by
  cases st <;> exact h

theorem holds_handler (c : ConnState) (i : Fin maxStates) : (c.state.handler i).Holds c := by
  cases h : c.state <;> exact h

theorem Staged.other (h : Staged s i) (hs : Step listenfd s a t) (hi : s.pc.slot ≠ some i) :
    Staged t i := by
  have hst : ∃ fd, t.connStates i = { s.connStates i with clientSocketFd := fd } := by
    rcases hs.connStates hi with he | ⟨_, hfd⟩
    · exact ⟨_, he⟩
    · exact hfd
  obtain ⟨fd, hc⟩ := hst
  constructor
  · rw [hc]
    exact h.sound
  · intro _ _
    rw [hc]
    apply ConnState.AtStage.client
    apply h.stage _ hs.running
    rintro he
    exact hi (by rw [he]; rfl)
  · intro ht
    rw [hs.entered hi ht]
    exact holds_handler _ _
  · intro _ hst
    rw [hc] at hst ⊢
    apply h.unsent _ hst
    rintro he
    exact hi (by rw [he]; rfl)

/-- A handler that writes to its slot. -/
theorem Staged.update {s : Sys} (hsound : ConnState.Sound c)
    (hstage : pc ≠ .connecting i → pc ≠ .exited → c.AtStage c.state) (hbusy : Pc.Holds c pc)
    (hunsent : pc ≠ .sendResponse i → c.state = .sendRes → c.bytesWrittenToClient = 0) :
    Staged { s.setConn i c with pc, sockets } i := by
  have hc : { s.setConn i c with pc, sockets }.connStates i = c := Function.update_self _ _ _
  constructor <;> rw [hc]
  · exact hsound
  · exact hstage
  · exact fun _ => hbusy
  · exact hunsent

/-- A handler that leaves its slot as it is. -/
theorem Staged.moved (h : Staged s i) (hpc : s.pc = pc₀) (hcon : pc ≠ .exited → pc₀ ≠ .connecting i)
    (hex : pc₀ ≠ .exited) (hsend : pc₀ ≠ .sendResponse i) (hbusy : pc.Holds (s.connStates i)) :
    Staged { s with pc, sockets } i := by
  subst hpc
  exact ⟨h.sound, fun _ hne => h.stage (hcon hne) hex, fun _ => hbusy, fun _ => h.unsent hsend⟩

theorem Staged.atStage (h : Staged s i) (hpc : s.pc = pc) (hcon : pc ≠ .connecting i)
    (hex : pc ≠ .exited) (hst : (s.connStates i).state = st) : (s.connStates i).AtStage st := by
  subst hpc
  rw [← hst]
  exact h.stage hcon hex

/-- When a request is rewritten, there is none for the server yet. -/
theorem Staged.unwritten (h : Staged s i) (hpc : s.pc = .rewriting i) :
    (s.connStates i).serverRequest = [] := by
  have hbusy := h.busy (by rw [hpc]; rfl)
  rw [hpc] at hbusy
  exact (h.atStage hpc nofun nofun hbusy.1).1

theorem sound_init : initConnState.Sound :=
  ⟨rfl, Nat.zero_le _, rfl, Nat.zero_le _⟩

theorem atStage_init : initConnState.AtStage .readReq :=
  ⟨rfl, rfl, rfl, rfl, rfl, rfl⟩

theorem ConnState.Sound.read {c : ConnState} {bytes : List UInt8} (h : c.Sound)
    (hn : bytes.length ≤ sizeT (maxObjectSize - c.bytesReadFromClient)) :
    { c with
      clientRequest := store c.clientRequest c.bytesReadFromClient bytes
      bytesReadFromClient := c.bytesReadFromClient + bytes.length }.Sound := by
  obtain ⟨hl, hle, hs⟩ := h
  rw [sizeT_sub hle le_rfl] at hn
  refine ⟨?_, ?_, hs⟩
  · simp [← hl, store_length]
  · dsimp only
    omega

theorem ConnState.Sound.readServer {c : ConnState} {bytes : List UInt8} (h : c.Sound)
    (hn : bytes.length ≤ sizeT (maxObjectSize - c.bytesReadFromServer)) :
    { c with
      serverResponse := store c.serverResponse c.bytesReadFromServer bytes
      bytesReadFromServer := c.bytesReadFromServer + bytes.length }.Sound := by
  obtain ⟨hl, hle, hs, hfits⟩ := h
  rw [sizeT_sub hfits le_rfl] at hn
  refine ⟨hl, hle, ?_, ?_⟩
  · simp [← hs, store_length]
  · dsimp only
    omega

theorem ConnState.AtStage.written (h : ConnState.AtStage c .sendReq)
    (hn : n ≤ sizeT (c.bytesToWriteServer - c.bytesWrittenToServer)) :
    ConnState.AtStage { c with bytesWrittenToServer := c.bytesWrittenToServer + n } .sendReq := by
  obtain ⟨⟨hcomplete, hto, hfits⟩, hle, hwc⟩ := h
  have hlen := cstring_length_le c.serverRequest
  rw [sizeT_sub hle (by omega)] at hn
  refine ⟨⟨hcomplete, hto, hfits⟩, ?_, hwc⟩
  dsimp only
  omega

theorem ConnState.AtStage.all_written (h : ConnState.AtStage c .sendReq)
    (hn : sizeT (c.bytesToWriteServer - c.bytesWrittenToServer) = 0) :
    c.bytesWrittenToServer = c.bytesToWriteServer := by
  obtain ⟨⟨_, hto, hfits⟩, hle, _⟩ := h
  have hlen := cstring_length_le c.serverRequest
  rw [sizeT_sub hle (by omega)] at hn
  omega

theorem ConnState.AtStage.delivered (h : ConnState.AtStage c .sendRes) (hs : c.Sound)
    (hn : n ≤ sizeT (c.bytesToWriteClient - c.bytesWrittenToClient)) :
    ConnState.AtStage { c with bytesWrittenToClient := c.bytesWrittenToClient + n } .sendRes := by
  obtain ⟨hto, hle⟩ := h
  have := hs.2.2.2
  rw [sizeT_sub hle (by omega)] at hn
  refine ⟨hto, ?_⟩
  dsimp only
  omega

theorem Staged.own (h : Staged s i) (hs : Step listenfd s a t) (hi : s.pc.slot = some i) :
    Staged t i := by
  have hsound := h.sound
  have hbusy := h.busy hi
  have hown : ∀ {j}, s.pc.slot = some j → i = j := fun hj => Option.some.inj (hi.symm.trans hj)
  cases hs with
  | skip hpc | listen hpc | dispatch hpc =>
    rw [hpc] at hi
    cases hi
  | requestAgain hpc | requestError hpc | overrun hpc | sendAgain hpc | sendError hpc =>
    exact h.moved hpc (fun _ => nofun) nofun nofun trivial
  | connectFails hpc => exact h.moved hpc (fun hne => absurd rfl hne) nofun nofun trivial
  | watchFails hpc =>
    rcases hpc with hpc | hpc
    · exact h.moved hpc (fun hne => absurd rfl hne) nofun nofun trivial
    · exact h.moved hpc (fun hne => absurd rfl hne) nofun nofun trivial
  | @requestData j c bytes hpc hn hc =>
    cases hown (by rw [hpc]; rfl)
    rw [hpc] at hbusy
    have hst : (s.connStates i).state = .readReq := hbusy
    have hat := h.atStage hpc nofun nofun hst
    have hcs : c.state = .readReq := by rw [hc]; exact hst
    apply Staged.update
    · exact hc ▸ hsound.read hn
    · intro _ _
      rw [hcs, hc]
      exact hat
    · split
      next hcomplete => exact ⟨hcs, hcomplete⟩
      next => exact hcs
    · intro _ he
      rw [hcs] at he
      cases he
  | rewrite hpc hc =>
    cases hown (by rw [hpc]; rfl)
    rw [hpc] at hbusy
    obtain ⟨hst, hcomplete⟩ := hbusy
    obtain ⟨_, _, hw, _, _, hwc⟩ := h.atStage hpc nofun nofun hst
    have hrw := Rewritten.of_reformat hc hcomplete (h.unwritten hpc)
    obtain ⟨_, _, _, rfl⟩ := reformatClientRequest_some hc hcomplete
    apply Staged.update
    · exact hsound
    · exact fun hne => absurd rfl hne
    · exact ⟨hrw, hw, hwc⟩
    · exact fun _ _ => hwc
  | connect hpc =>
    cases hown (by rw [hpc]; rfl)
    rw [hpc] at hbusy
    obtain ⟨hrw, hw, hwc⟩ := hbusy
    apply Staged.update
    · exact hsound
    · intro _ _
      refine ⟨hrw, ?_, hwc⟩
      dsimp only
      omega
    · trivial
    · exact nofun
  | connectUnregistered hpc =>
    cases hown (by rw [hpc]; rfl)
    rw [hpc] at hbusy
    apply Staged.update
    · exact hsound
    · exact fun _ hne => absurd rfl hne
    · trivial
    · exact fun _ _ => hbusy.2.2
  | requestSent hpc hpos hn =>
    cases hown (by rw [hpc]; rfl)
    rw [hpc] at hbusy
    have hst : (s.connStates i).state = .sendReq := hbusy
    have hat := h.atStage hpc nofun nofun hst
    apply Staged.update
    · exact hsound
    · intro _ _
      dsimp only
      rw [hst]
      exact hat.written hn
    · change Pc.Holds _ s.pc
      rw [hpc]
      exact hst
    · exact fun _ _ => hat.2.2
  | requestDone hpc hn =>
    cases hown (by rw [hpc]; rfl)
    rw [hpc] at hbusy
    have hst : (s.connStates i).state = .sendReq := hbusy
    have hat := h.atStage hpc nofun nofun hst
    exact h.moved hpc (fun _ => nofun) nofun nofun ⟨hst, hat.all_written hn⟩
  | watchServer hpc =>
    cases hown (by rw [hpc]; rfl)
    rw [hpc] at hbusy
    obtain ⟨hst, hw⟩ := hbusy
    have hat := h.atStage hpc nofun nofun hst
    apply Staged.update
    · exact hsound
    · exact fun _ _ => ⟨hw, hat.2.2⟩
    · trivial
    · exact nofun
  | watchClient hpc =>
    cases hown (by rw [hpc]; rfl)
    rw [hpc] at hbusy
    obtain ⟨hst, hto⟩ := hbusy
    obtain ⟨_, hwc⟩ := h.atStage hpc nofun nofun hst
    apply Staged.update
    · exact hsound
    · intro _ _
      refine ⟨hto, ?_⟩
      dsimp only
      omega
    · trivial
    · exact fun _ _ => hwc
  | responseData hpc hne hn =>
    cases hown (by rw [hpc]; rfl)
    rw [hpc] at hbusy
    have hst : (s.connStates i).state = .readRes := hbusy
    have hat := h.atStage hpc nofun nofun hst
    apply Staged.update
    · exact hsound.readServer hn
    · intro _ _
      dsimp only
      rw [hst]
      exact hat
    · change Pc.Holds _ s.pc
      rw [hpc]
      exact hst
    · exact fun _ _ => hat.2
  | responseEnd hpc | responseAgain hpc | responseError hpc =>
    cases hown (by rw [hpc]; rfl)
    rw [hpc] at hbusy
    have hst : (s.connStates i).state = .readRes := hbusy
    have hat := h.atStage hpc nofun nofun hst
    apply Staged.update
    · exact hsound
    · intro _ _
      dsimp only
      rw [hst]
      exact hat
    · trivial
    · exact fun _ _ => hat.2
  | responseSent hpc hpos hn =>
    cases hown (by rw [hpc]; rfl)
    rw [hpc] at hbusy
    have hst : (s.connStates i).state = .sendRes := hbusy
    have hat := h.atStage hpc nofun nofun hst
    apply Staged.update
    · exact hsound
    · intro _ _
      dsimp only
      rw [hst]
      exact hat.delivered hsound hn
    · change Pc.Holds _ s.pc
      rw [hpc]
      exact hst
    · exact fun hne => absurd hpc hne
  | responseDone hpc | deliverAgain hpc | deliverError hpc =>
    cases hown (by rw [hpc]; rfl)
    apply Staged.update
    · exact sound_init
    · exact fun _ _ => atStage_init
    · trivial
    · exact fun _ => nofun

theorem Staged.step (h : Staged s i) (hs : Step listenfd s a t) : Staged t i := by
  by_cases hi : s.pc.slot = some i
  · exact h.own hs hi
  · exact h.other hs hi

theorem staged (h : (proxy listenfd fds).Reachable s) (i : Fin maxStates) : Staged s i := by
  apply h.invariant
  · exact ⟨sound_init, fun _ _ => atStage_init, fun _ => trivial, fun _ => nofun⟩
  · intro t a u _ ht _ hn
    exact ht.step (next_step hn)

structure Consistent (c : ConnState) : Prop where
  request : c.bytesReadFromClient ≤ maxObjectSize
  response : c.bytesReadFromServer ≤ maxObjectSize
  readReq : c.state = .readReq → c.serverRequest = [] ∧ c.bytesToWriteServer = 0 ∧
    c.bytesWrittenToServer = 0 ∧ c.bytesReadFromServer = 0 ∧ c.bytesToWriteClient = 0 ∧
    c.bytesWrittenToClient = 0
  sendReq : c.state = .sendReq → blankLine <:+: c.clientRequest ∧
    c.bytesToWriteServer = (cstring c.serverRequest).length ∧
    c.bytesWrittenToServer ≤ c.bytesToWriteServer
  readRes : c.state = .readRes → c.bytesWrittenToServer = c.bytesToWriteServer
  sendRes : c.state = .sendRes → c.bytesToWriteClient = c.bytesReadFromServer ∧
    c.bytesWrittenToClient ≤ c.bytesToWriteClient

theorem ConnState.AtStage.consistent (h : ConnState.AtStage c c.state) (hs : c.Sound) :
    Consistent c where
  request := hs.2.1
  response := hs.2.2.2
  readReq hst := by
    rw [hst] at h
    exact h
  sendReq hst := by
    rw [hst] at h
    exact ⟨h.1.1, h.1.2.1, h.2.1⟩
  readRes hst := by
    rw [hst] at h
    exact h.1
  sendRes hst := by
    rw [hst] at h
    exact h

/-- The offset in its block and the count that the coming `read` or `write` is called with. -/
def Sys.region (s : Sys) : Option (Nat × Nat) :=
  match s.pc with
  | .readRequest i =>
    let c := s.connStates i
    some (c.bytesReadFromClient, sizeT (maxObjectSize - c.bytesReadFromClient))
  | .sendRequest i =>
    let c := s.connStates i
    some (c.bytesWrittenToServer, sizeT (c.bytesToWriteServer - c.bytesWrittenToServer))
  | .readResponse i =>
    let c := s.connStates i
    some (c.bytesReadFromServer, sizeT (maxObjectSize - c.bytesReadFromServer))
  | .sendResponse i =>
    let c := s.connStates i
    some (c.bytesWrittenToClient, sizeT (c.bytesToWriteClient - c.bytesWrittenToClient))
  | _ => none

theorem region_fits (h : ∀ i, Staged s i) (hr : s.region = some (offset, count)) :
    offset + count ≤ maxObjectSize := by
  simp only [Sys.region] at hr
  split at hr
  next i hpc =>
    cases hr
    have := (h i).sound.2.1
    rw [sizeT_sub this le_rfl]
    omega
  next i hpc =>
    have hbusy := (h i).busy (by rw [hpc]; rfl)
    rw [hpc] at hbusy
    obtain ⟨⟨_, hto, hfits⟩, hle, _⟩ := (h i).atStage hpc nofun nofun hbusy
    have := cstring_length_le (s.connStates i).serverRequest
    cases hr
    rw [sizeT_sub hle (by omega)]
    omega
  next i hpc =>
    cases hr
    have := (h i).sound.2.2.2
    rw [sizeT_sub this le_rfl]
    omega
  next i hpc =>
    have hbusy := (h i).busy (by rw [hpc]; rfl)
    rw [hpc] at hbusy
    obtain ⟨hto, hle⟩ := (h i).atStage hpc nofun nofun hbusy
    have := (h i).sound.2.2.2
    cases hr
    rw [sizeT_sub hle (by omega)]
    omega
  next => cases hr

/-- In every reachable state every slot is consistent with its stage, except one for which
`read_request` is about to connect, and no `read` or `write` leaves its block. A run in which
`reformat_client_request` leaves its buffers ends there. -/
theorem slots_consistent (h : (proxy listenfd fds).Reachable s) (hex : s.pc ≠ .exited) :
    (∀ i, s.pc ≠ .connecting i → Consistent (s.connStates i)) ∧
      ∀ offset count, s.region = some (offset, count) → offset + count ≤ maxObjectSize := by
  have hs := staged h
  constructor
  · intro i hc
    exact ((hs i).stage hc hex).consistent (hs i).sound
  · intro offset count hr
    exact region_fits hs hr

def sendingRequest : List Action :=
  [.event none .none (.of [5]), .event (some 0) .none (.of []),
    .read (.data (chars "GET http://a/b HTTP/1.1\r\n\r\n")), .malloc [], .connect (some 6) true,
    .event (some 0) .none (.of []), .write (.count 100)]

theorem slots_consistent_sending : ∃ s : Sys, s.region = some (100, 61) ∧
    (s.connStates 0).state = .sendReq ∧
    (∀ i, s.pc ≠ .connecting i → Consistent (s.connStates i)) ∧
      ∀ offset count, s.region = some (offset, count) → offset + count ≤ maxObjectSize := by
  obtain ⟨s, hr, hreg, hst, hpc⟩ := Machine.exists_reach_of_exec (proxy 3 {0, 1, 2, 3, 4})
    (fun _ _ => True) sendingRequest
    (P := fun s => s.region = some (100, 61) ∧ (s.connStates 0).state = .sendReq ∧ s.pc ≠ .exited)
    (Machine.along_true _ _) (by decide +kernel)
  exact ⟨s, hreg, hst, slots_consistent hr hpc⟩

end Cs324.EpollProxy
