import Cs324.EpollProxy.System

namespace Cs324.EpollProxy
set_option autoImplicit true

def Sys.clientFd (listenfd : Int) (s : Sys) : Option (Fin maxStates) → Int
  | none => listenfd
  | some i => (s.connStates i).clientSocketFd

/-- The slot whose handler is running. -/
def Pc.slot : Pc → Option (Fin maxStates)
  | .readRequest i | .rewriting i | .connecting i | .sendRequest i | .watchServer i
  | .readResponse i | .watchClient i | .sendResponse i => some i
  | .main | .exited | .undefined => none

inductive Step (listenfd : Int) (s : Sys) : Action → Sys → Prop
  | skip (hpc : s.pc = .main) (hf : flags.skip = true) :
      Step listenfd s (.event ptr flags accepts) s
  | listen (hpc : s.pc = .main) (hf : flags.skip = false)
      (hptr : s.clientFd listenfd ptr = listenfd)
      (h : s.listen accepts = some t) : Step listenfd s (.event ptr flags accepts) t
  | dispatch (hpc : s.pc = .main) (hf : flags.skip = false)
      (hptr : (s.connStates i).clientSocketFd ≠ listenfd) :
      Step listenfd s (.event (some i) flags accepts)
        { s with pc := (s.connStates i).state.handler i }
  | requestData (hpc : s.pc = .readRequest i)
      (hn : bytes.length ≤ sizeT (maxObjectSize - (s.connStates i).bytesReadFromClient))
      (hc : c = { s.connStates i with
        clientRequest :=
          store (s.connStates i).clientRequest (s.connStates i).bytesReadFromClient bytes
        bytesReadFromClient := (s.connStates i).bytesReadFromClient + bytes.length }) :
      Step listenfd s (.read (.data bytes))
        { s.setConn i c with
          pc := if isCompleteRequest c.requestString then .rewriting i else .readRequest i
          sockets := s.sockets.read (s.connStates i).clientSocketFd bytes }
  | requestAgain (hpc : s.pc = .readRequest i) :
      Step listenfd s (.read .again) { s with pc := .main }
  | requestError (hpc : s.pc = .readRequest i) :
      Step listenfd s (.read .error)
        { s with
          pc := .main
          sockets := (s.sockets.close (s.connStates i).clientSocketFd).close
            (s.connStates i).serverSocketFd }
  | rewrite (hpc : s.pc = .rewriting i)
      (hc : reformatClientRequest block (s.connStates i) = some c) :
      Step listenfd s (.malloc block) { s.setConn i c with pc := .connecting i }
  | overrun (hpc : s.pc = .rewriting i)
      (hc : reformatClientRequest block (s.connStates i) = none) :
      Step listenfd s (.malloc block) { s with pc := .undefined }
  | connect (hpc : s.pc = .connecting i) (hfd : 0 ≤ fd) (hnew : fd ∉ s.sockets.opened) :
      Step listenfd s (.connect (some fd) true)
        { s.setConn i { s.connStates i with serverSocketFd := fd, state := .sendReq } with
          pc := .main
          sockets := s.sockets.openSocket fd }
  | connectUnregistered (hpc : s.pc = .connecting i) (hfd : 0 ≤ fd) (hnew : fd ∉ s.sockets.opened) :
      Step listenfd s (.connect (some fd) false)
        { s.setConn i { s.connStates i with serverSocketFd := fd } with
          pc := .exited
          sockets := s.sockets.openSocket fd }
  | connectFails (hpc : s.pc = .connecting i) :
      Step listenfd s (.connect none registered) { s with pc := .exited }
  | requestSent (hpc : s.pc = .sendRequest i) (hpos : 0 < n)
      (hn : n ≤
        sizeT ((s.connStates i).bytesToWriteServer - (s.connStates i).bytesWrittenToServer)) :
      Step listenfd s (.write (.count n))
        { s.setConn i { s.connStates i with
            bytesWrittenToServer := (s.connStates i).bytesWrittenToServer + n } with
          sockets := s.sockets.write (s.connStates i).serverSocketFd
            (load (s.connStates i).serverRequest (s.connStates i).bytesWrittenToServer n) }
  | requestDone (hpc : s.pc = .sendRequest i)
      (hn : sizeT
        ((s.connStates i).bytesToWriteServer - (s.connStates i).bytesWrittenToServer) = 0) :
      Step listenfd s (.write (.count 0)) { s with pc := .watchServer i }
  | sendAgain (hpc : s.pc = .sendRequest i) :
      Step listenfd s (.write .again) { s with pc := .main }
  | sendError (hpc : s.pc = .sendRequest i) :
      Step listenfd s (.write .error)
        { s with
          pc := .main
          sockets := (s.sockets.close (s.connStates i).clientSocketFd).close
            (s.connStates i).serverSocketFd }
  | watchServer (hpc : s.pc = .watchServer i) :
      Step listenfd s (.epollCtl true)
        { s.setConn i { s.connStates i with state := .readRes } with pc := .main }
  | watchClient (hpc : s.pc = .watchClient i) :
      Step listenfd s (.epollCtl true)
        { s.setConn i { s.connStates i with state := .sendRes } with pc := .main }
  | watchFails (hpc : s.pc = .watchServer i ∨ s.pc = .watchClient i) :
      Step listenfd s (.epollCtl false) { s with pc := .exited }
  | responseData (hpc : s.pc = .readResponse i) (hne : bytes ≠ [])
      (hn : bytes.length ≤ sizeT (maxObjectSize - (s.connStates i).bytesReadFromServer)) :
      Step listenfd s (.read (.data bytes))
        { s.setConn i { s.connStates i with
            serverResponse :=
              store (s.connStates i).serverResponse (s.connStates i).bytesReadFromServer bytes
            bytesReadFromServer := (s.connStates i).bytesReadFromServer + bytes.length } with
          sockets := s.sockets.read (s.connStates i).serverSocketFd bytes }
  | responseEnd (hpc : s.pc = .readResponse i) :
      Step listenfd s (.read (.data []))
        { s.setConn i { s.connStates i with
            bytesToWriteClient := (s.connStates i).bytesReadFromServer } with
          pc := .watchClient i
          sockets := s.sockets.close (s.connStates i).serverSocketFd }
  | responseAgain (hpc : s.pc = .readResponse i) :
      Step listenfd s (.read .again)
        { s.setConn i { s.connStates i with
            bytesToWriteClient := (s.connStates i).bytesReadFromServer } with
          pc := .main }
  | responseError (hpc : s.pc = .readResponse i) :
      Step listenfd s (.read .error)
        { s.setConn i { s.connStates i with
            bytesToWriteClient := (s.connStates i).bytesReadFromServer } with
          pc := .main
          sockets := (s.sockets.close (s.connStates i).clientSocketFd).close
            (s.connStates i).serverSocketFd }
  | responseSent (hpc : s.pc = .sendResponse i) (hpos : 0 < n)
      (hn : n ≤
        sizeT ((s.connStates i).bytesToWriteClient - (s.connStates i).bytesWrittenToClient)) :
      Step listenfd s (.write (.count n))
        { s.setConn i { s.connStates i with
            bytesWrittenToClient := (s.connStates i).bytesWrittenToClient + n } with
          sockets := s.sockets.write (s.connStates i).clientSocketFd
            (load (s.connStates i).serverResponse (s.connStates i).bytesWrittenToClient n) }
  | responseDone (hpc : s.pc = .sendResponse i)
      (hn : sizeT
        ((s.connStates i).bytesToWriteClient - (s.connStates i).bytesWrittenToClient) = 0) :
      Step listenfd s (.write (.count 0))
        { s.setConn i initConnState with
          pc := .main
          sockets := s.sockets.close (s.connStates i).clientSocketFd }
  | deliverAgain (hpc : s.pc = .sendResponse i) :
      Step listenfd s (.write .again) { s.setConn i initConnState with pc := .main }
  | deliverError (hpc : s.pc = .sendResponse i) :
      Step listenfd s (.write .error)
        { s.setConn i initConnState with
          pc := .main
          sockets := s.sockets.close (s.connStates i).clientSocketFd }

theorem next_step (h : Sys.next listenfd s a = some t) : Step listenfd s a t := by
  unfold Sys.next at h
  split at h
  next ptr flags accepts hpc =>
    unfold Sys.handle at h
    split at h
    next hf =>
      cases h
      exact .skip hpc hf
    next hf =>
      have hf : flags.skip = false := by simpa only [Bool.not_eq_true] using hf
      split at h
      next => exact .listen hpc hf rfl h
      next i =>
        split at h
        next hfd => exact .listen hpc hf hfd h
        next hfd =>
          cases h
          exact .dispatch hpc hf hfd
  next i r hpc =>
    cases r with
    | data bytes =>
      simp only [Sys.readRequest, Option.ite_none_right_eq_some] at h
      obtain ⟨hn, h⟩ := h
      cases h
      exact .requestData hpc hn rfl
    | again =>
      cases h
      exact .requestAgain hpc
    | error =>
      cases h
      exact .requestError hpc
  next i block hpc =>
    cases h
    unfold Sys.rewrite
    cases hc : reformatClientRequest block (s.connStates i) with
    | some c => exact .rewrite hpc hc
    | none => exact .overrun hpc hc
  next i result registered hpc =>
    cases result with
    | none =>
      cases h
      exact .connectFails hpc
    | some fd =>
      simp only [Sys.connect, Option.ite_none_right_eq_some] at h
      obtain ⟨⟨hfd, hnew⟩, h⟩ := h
      cases h
      cases registered with
      | true => exact .connect hpc hfd hnew
      | false => exact .connectUnregistered hpc hfd hnew
  next i r hpc =>
    cases r with
    | count n =>
      simp only [Sys.sendRequest, Option.ite_none_right_eq_some] at h
      obtain ⟨⟨hn, h0⟩, h⟩ := h
      split at h
      next hz =>
        cases h
        subst hz
        exact .requestDone hpc (h0 rfl)
      next hz =>
        cases h
        exact .requestSent hpc (Nat.pos_of_ne_zero hz) hn
    | again =>
      cases h
      exact .sendAgain hpc
    | error =>
      cases h
      exact .sendError hpc
  next i registered hpc =>
    cases h
    cases registered with
    | true => exact .watchServer hpc
    | false => exact .watchFails (.inl hpc)
  next i r hpc =>
    cases r with
    | data bytes =>
      simp only [Sys.readResponse, Option.ite_none_right_eq_some] at h
      obtain ⟨hn, h⟩ := h
      split at h
      next hz =>
        cases h
        subst hz
        exact .responseEnd hpc
      next hz =>
        cases h
        exact .responseData hpc hz hn
    | again =>
      cases h
      exact .responseAgain hpc
    | error =>
      cases h
      exact .responseError hpc
  next i registered hpc =>
    cases h
    cases registered with
    | true => exact .watchClient hpc
    | false => exact .watchFails (.inr hpc)
  next i r hpc =>
    cases r with
    | count n =>
      simp only [Sys.sendResponse, Option.ite_none_right_eq_some] at h
      obtain ⟨⟨hn, h0⟩, h⟩ := h
      split at h
      next hz =>
        cases h
        subst hz
        exact .responseDone hpc (h0 rfl)
      next hz =>
        cases h
        exact .responseSent hpc (Nat.pos_of_ne_zero hz) hn
    | again =>
      cases h
      exact .deliverAgain hpc
    | error =>
      cases h
      exact .deliverError hpc
  next => cases h

variable {s t : Sys}

/-- What every `accept` of a turn of `connect_to_client` keeps, the turn keeps. -/
theorem connectToClient_keeps {P : Sys → Prop} (h : s.connectToClient i fds = some t) (hs : P s)
    (hstep : ∀ u fd, P u → 0 < fd → fd ∉ u.sockets.opened → P (u.attach i fd)) : P t := by
  induction fds generalizing s with
  | nil =>
    cases h
    exact hs
  | cons fd fds ih =>
    simp only [Sys.connectToClient, Option.ite_none_right_eq_some] at h
    exact ih h.2 (hstep s fd hs h.1.1 h.1.2)

theorem connectToClient_pc (h : s.connectToClient i fds = some t) : t.pc = s.pc :=
  connectToClient_keeps (P := fun u => u.pc = s.pc) h rfl fun _ _ hu _ _ => hu

theorem connectToClient_connStates (h : s.connectToClient i fds = some t) :
    ∃ fd, t.connStates =
      Function.update s.connStates i { s.connStates i with clientSocketFd := fd } := by
  apply connectToClient_keeps h
  · exact ⟨(s.connStates i).clientSocketFd, by simp⟩
  · intro u fd hu _ _
    obtain ⟨_, hu⟩ := hu
    exact ⟨fd, by simp [Sys.attach, Sys.setConn, hu]⟩

theorem listen_cases (h : s.listen accepts = some t) :
    ∃ u, s.connectToClient s.connStateIdx accepts.clients = some u ∧
      t.connStates = u.connStates ∧ t.connStateIdx = nextIdx s.connStateIdx ∧
      t.listens = s.listens + 1 ∧ (t.pc = u.pc ∨ t.pc = .exited) ∧
      (t.sockets = u.sockets ∨ 0 ∉ u.sockets.opened ∧ t.sockets = u.sockets.openSocket 0) := by
  simp only [Sys.listen, Option.bind_eq_bind, Option.bind_eq_some_iff] at h
  obtain ⟨u, hu, h⟩ := h
  refine ⟨u, hu, ?_⟩
  split at h
  next =>
    cases h
    exact ⟨rfl, rfl, rfl, .inr rfl, .inl rfl⟩
  next =>
    split at h
    next =>
      cases h
      exact ⟨rfl, rfl, rfl, .inl rfl, .inl rfl⟩
    next =>
      split at h
      next => cases h
      next hz =>
        cases h
        exact ⟨rfl, rfl, rfl, .inl rfl, .inr ⟨hz, rfl⟩⟩

def Attaches (listenfd : Int) (s : Sys) (i : Fin maxStates) : Action → Prop
  | .event ptr flags accepts =>
    s.clientFd listenfd ptr = listenfd ∧ flags.skip = false ∧ s.connStateIdx = i ∧
      accepts.clients ≠ []
  | _ => False

instance (s : Sys) (i : Fin maxStates) (a : Action) : Decidable (Attaches listenfd s i a) := by
  cases a <;> unfold Attaches <;> infer_instance

theorem listen_connStates (h : s.listen accepts = some t) (i : Fin maxStates) :
    t.connStates i = s.connStates i ∨ s.connStateIdx = i ∧ accepts.clients ≠ [] ∧
      ∃ fd, t.connStates i = { s.connStates i with clientSocketFd := fd } := by
  obtain ⟨u, hu, hc, _⟩ := listen_cases h
  rw [hc]
  by_cases hn : accepts.clients = []
  · rw [hn] at hu
    cases hu
    exact .inl rfl
  · obtain ⟨fd, hu⟩ := connectToClient_connStates hu
    rw [hu]
    by_cases he : s.connStateIdx = i
    · subst he
      exact .inr ⟨rfl, hn, fd, Function.update_self _ _ _⟩
    · exact .inl (Function.update_of_ne (Ne.symm he) _ _)

/-- An action leaves a slot that is not being handled alone, or attaches clients to it. -/
theorem Step.connStates (h : Step listenfd s a t) (hi : s.pc.slot ≠ some i) :
    t.connStates i = s.connStates i ∨ Attaches listenfd s i a ∧
      ∃ fd, t.connStates i = { s.connStates i with clientSocketFd := fd } := by
  have hne : ∀ {j}, s.pc.slot = some j → i ≠ j := by
    rintro j hj rfl
    exact hi hj
  cases h with
  | listen hpc hf hptr h =>
    rcases listen_connStates h i with he | ⟨he, hn, hfd⟩
    · exact .inl he
    · exact .inr ⟨⟨hptr, hf, he, hn⟩, hfd⟩
  | skip | dispatch | requestAgain | requestError | overrun | connectFails | requestDone | sendAgain
  | sendError | watchFails => exact .inl rfl
  | _ hpc => exact .inl (Function.update_of_ne (hne (by rw [hpc]; rfl)) _ _)

@[simp] theorem handler_slot (i : Fin maxStates) (state : State) :
    (state.handler i).slot = some i := by
  cases state <;> rfl

/-- The handlers keep the descriptors of their slot or clear them, and only `connect_to_server`
brings a new one. -/
theorem Step.fds (h : Step listenfd s a t) (ha : ¬Attaches listenfd s i a) :
    ((t.connStates i).clientSocketFd = (s.connStates i).clientSocketFd ∨
        (t.connStates i).clientSocketFd = 0) ∧
      ((t.connStates i).serverSocketFd = (s.connStates i).serverSocketFd ∨
        (t.connStates i).serverSocketFd = 0 ∨
        (t.connStates i).serverSocketFd ∉ s.sockets.opened) := by
  by_cases hi : s.pc.slot = some i
  · have hown : ∀ {j}, s.pc.slot = some j → i = j := fun hj => Option.some.inj (hi.symm.trans hj)
    cases h with
    | skip hpc | listen hpc | dispatch hpc =>
      rw [hpc] at hi
      cases hi
    | requestAgain | requestError | overrun | connectFails | requestDone | sendAgain | sendError
    | watchFails => exact ⟨.inl rfl, .inl rfl⟩
    | rewrite hpc hc =>
      cases hown (by rw [hpc]; rfl)
      obtain ⟨hcl, hsv⟩ := reformatClientRequest_fds hc
      simp [Sys.setConn, hcl, hsv]
    | connect hpc _ hn | connectUnregistered hpc _ hn =>
      cases hown (by rw [hpc]; rfl)
      simp [Sys.setConn, hn]
    | @requestData _ c _ hpc _ hc =>
      cases hown (by rw [hpc]; rfl)
      simp [Sys.setConn, hc]
    | requestSent hpc | watchServer hpc | watchClient hpc | responseData hpc | responseEnd hpc
    | responseAgain hpc | responseError hpc | responseSent hpc | responseDone hpc
    | deliverAgain hpc | deliverError hpc =>
      cases hown (by rw [hpc]; rfl)
      simp [Sys.setConn, initConnState]
  · rw [(h.connStates hi).resolve_right fun he => ha he.1]
    exact ⟨.inl rfl, .inl rfl⟩

theorem Step.running (h : Step listenfd s a t) : s.pc ≠ .exited := by
  intro he
  cases h with
  | watchFails hpc => simp [he] at hpc
  | _ hpc => simp [he] at hpc

/-- A handler goes on, or returns, or is entered in the state of its slot. -/
theorem Step.slot (h : Step listenfd s a t) :
    t.pc.slot = s.pc.slot ∨ t.pc.slot = none ∨
      ∃ i, s.pc = .main ∧ t = { s with pc := (s.connStates i).state.handler i } := by
  cases h with
  | listen hpc hf hptr h =>
    obtain ⟨u, hu, _, _, _, ht | ht, _⟩ := listen_cases h
    · rw [ht, connectToClient_pc hu]
      exact .inl rfl
    · rw [ht]
      exact .inr (.inl rfl)
  | dispatch hpc => exact .inr (.inr ⟨_, hpc, rfl⟩)
  | skip | requestSent | responseData | responseSent => exact .inl rfl
  | requestData hpc =>
    rw [hpc]
    left
    dsimp only
    split <;> rfl
  | rewrite hpc | requestDone hpc | responseEnd hpc =>
    rw [hpc]
    exact .inl rfl
  | _ => exact .inr (.inl rfl)

/-- If a step of another slot brings control to this one, its handler is entered. -/
theorem Step.entered (h : Step listenfd s a t) (hi : s.pc.slot ≠ some i)
    (ht : t.pc.slot = some i) : t.pc = (t.connStates i).state.handler i := by
  rcases h.slot with he | he | ⟨j, _, rfl⟩
  · exact absurd (he.symm.trans ht) hi
  · rw [he] at ht
    cases ht
  · rw [handler_slot, Option.some.injEq] at ht
    subst ht
    rfl

/-- An open descriptor stays open and its traffic the same. -/
structure Sockets.Keeps (k k' : Sockets) (fd : Int) : Prop where
  opened : fd ∈ k'.opened
  sent : k'.sent fd = k.sent fd
  received : k'.received fd = k.received fd

namespace Sockets
variable {k k' : Sockets} {fd : Int}

theorem Keeps.refl (h : fd ∈ k.opened) : k.Keeps k fd :=
  ⟨h, rfl, rfl⟩

theorem Keeps.trans (h : k.Keeps k' fd) (h' : k'.Keeps k'' fd) : k.Keeps k'' fd :=
  ⟨h'.opened, h'.sent.trans h.sent, h'.received.trans h.received⟩

theorem keeps_openSocket (h : fd ∈ k.opened) (hn : new ∉ k.opened) :
    k.Keeps (k.openSocket new) fd := by
  have hne : fd ≠ new := by
    rintro rfl
    exact hn h
  exact ⟨Finset.mem_insert_of_mem h, Function.update_of_ne hne _ _, Function.update_of_ne hne _ _⟩

theorem keeps_attach (h : fd ∈ k.opened) : k.Keeps (k.attach new i n) fd :=
  ⟨h, rfl, rfl⟩

theorem keeps_close (h : fd ∈ k.opened) (hne : fd ≠ old) : k.Keeps (k.close old) fd :=
  ⟨Finset.mem_erase.2 ⟨hne, h⟩, rfl, rfl⟩

theorem keeps_read (h : fd ∈ k.opened) (hne : fd ≠ other) : k.Keeps (k.read other bytes) fd :=
  ⟨h, rfl, Function.update_of_ne hne _ _⟩

theorem keeps_write (h : fd ∈ k.opened) (hne : fd ≠ other) : k.Keeps (k.write other bytes) fd :=
  ⟨h, Function.update_of_ne hne _ _, rfl⟩

end Sockets

theorem listen_keeps (h : s.listen accepts = some t) (hfd : fd ∈ s.sockets.opened) :
    s.sockets.Keeps t.sockets fd := by
  obtain ⟨u, hu, _, _, _, _, hs⟩ := listen_cases h
  have hk : s.sockets.Keeps u.sockets fd := by
    apply connectToClient_keeps (P := fun u => s.sockets.Keeps u.sockets fd) hu (.refl hfd)
    intro u new hk _ hn
    have ho := Sockets.keeps_openSocket hk.opened hn
    exact (hk.trans ho).trans (Sockets.keeps_attach ho.opened)
  rcases hs with hs | ⟨hn, hs⟩
  · rwa [hs]
  · rw [hs]
    exact hk.trans (Sockets.keeps_openSocket hk.opened hn)

/-- The descriptors from which a handler reads bytes, to which it writes some, or that it closes. -/
def Sys.touched (s : Sys) (a : Action) : Finset Int :=
  match s.pc, a with
  | .readRequest i, .read (.data _) | .sendResponse i, .write (.count _)
  | .sendResponse i, .write .error => {(s.connStates i).clientSocketFd}
  | .sendRequest i, .write (.count _) | .readResponse i, .read (.data _) =>
    {(s.connStates i).serverSocketFd}
  | .readRequest i, .read .error | .sendRequest i, .write .error | .readResponse i, .read .error =>
    {(s.connStates i).clientSocketFd, (s.connStates i).serverSocketFd}
  | _, _ => ∅

/-- A step keeps the open descriptors that it does not touch. -/
theorem Step.keeps (h : Step listenfd s a t) (hfd : fd ∈ s.sockets.opened)
    (hnot : fd ∉ s.touched a) : s.sockets.Keeps t.sockets fd := by
  cases h with
  | listen hpc hf hptr h => exact listen_keeps h hfd
  | requestData hpc | responseData hpc =>
    simp only [Sys.touched, hpc, Finset.mem_singleton] at hnot
    exact Sockets.keeps_read hfd hnot
  | requestSent hpc | responseSent hpc =>
    simp only [Sys.touched, hpc, Finset.mem_singleton] at hnot
    exact Sockets.keeps_write hfd hnot
  | connect hpc _ hn | connectUnregistered hpc _ hn => exact Sockets.keeps_openSocket hfd hn
  | responseDone hpc | deliverError hpc | responseEnd hpc =>
    simp only [Sys.touched, hpc, Finset.mem_singleton] at hnot
    exact Sockets.keeps_close hfd hnot
  | requestError hpc | sendError hpc | responseError hpc =>
    simp only [Sys.touched, hpc, Finset.mem_insert, Finset.mem_singleton, not_or] at hnot
    have hk := Sockets.keeps_close hfd hnot.1
    exact hk.trans (Sockets.keeps_close hk.opened hnot.2)
  | _ => exact .refl hfd

/-- The handler of a slot touches only the descriptors that the slot has. -/
theorem not_touched (h : ∀ i, s.pc.slot = some i →
    fd ≠ (s.connStates i).clientSocketFd ∧ fd ≠ (s.connStates i).serverSocketFd) :
    fd ∉ s.touched a := by
  unfold Sys.touched
  split <;> try exact Finset.notMem_empty fd
  all_goals
    rename_i hpc
    have hfds := h _ (congrArg Pc.slot hpc)
    simp [hfds]

end Cs324.EpollProxy
