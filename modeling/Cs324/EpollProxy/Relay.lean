import Cs324.EpollProxy.Forwarding
import Cs324.EpollProxy.Request

namespace Cs324.EpollProxy
set_option autoImplicit true

/-- The slot is the client's and is given to no other, the handlers of other slots read, write and
close other descriptors than its own, the calls of its own give no error but `EAGAIN`, and that not
where the rest of the response would be lost; the client sends `stream`, and the server answers with
`response`. -/
structure Peaceful (listenfd : Int) (i : Fin maxStates) (fd : Int) (stream response : List UInt8)
    (s : Sys) (a : Action) : Prop where
  client : (s.connStates i).clientSocketFd = fd
  own : ¬Attaches listenfd s i a
  others : s.pc.slot ≠ some i → ∀ own ∈ (s.connStates i).fds, own ∉ s.touched a
  succeeds : s.pc.slot = some i → a ≠ .read .error ∧ a ≠ .write .error
  asks : s.pc = .readRequest i → s.sockets.received fd ++ a.data <+: stream
  answers : ∀ r, s.pc = .readResponse i → a = .read r → Gives response (s.connStates i) r
  takes : NotCutOff i fd s a

instance (response : List UInt8) (c : ConnState) : (r : ReadResult) → Decidable (Gives response c r)
  | .data bytes => inferInstanceAs (Decidable (bytes <+: response.drop c.bytesReadFromServer ∧
      (bytes = [] → c.responseCount = 0 ∨ response.length ≤ c.bytesReadFromServer)))
  | .again | .error => .isTrue trivial

instance (response : List UInt8) (c : ConnState) : (a : Action) →
    Decidable (∀ r, a = .read r → Gives response c r)
  | .read r => decidable_of_iff (Gives response c r)
      ⟨fun h _ ha => Action.read.inj ha ▸ h, fun h => h r rfl⟩
  | .event .. | .write _ | .malloc _ | .connect .. | .epollCtl _ => .isTrue nofun

instance : Decidable (Peaceful listenfd i fd stream response s a) :=
  decidable_of_iff ((s.connStates i).clientSocketFd = fd ∧ ¬Attaches listenfd s i a ∧
      (s.pc.slot ≠ some i → ∀ own ∈ (s.connStates i).fds, own ∉ s.touched a) ∧
      (s.pc.slot = some i → a ≠ .read .error ∧ a ≠ .write .error) ∧
      (s.pc = .readRequest i → s.sockets.received fd ++ a.data <+: stream) ∧
      (s.pc = .readResponse i → ∀ r, a = .read r → Gives response (s.connStates i) r) ∧
      NotCutOff i fd s a)
    ⟨fun ⟨h₁, h₂, h₃, h₄, h₅, h₆, h₇⟩ => ⟨h₁, h₂, h₃, h₄, h₅, fun r hpc => h₆ hpc r, h₇⟩,
      fun h => ⟨h.client, h.own, h.others, h.succeeds, h.asks, fun hpc r => h.answers r hpc,
        h.takes⟩⟩

theorem client_mem_fds (c : ConnState) : c.clientSocketFd ∈ c.fds :=
  Finset.mem_insert_self _ _

section
variable {s t : Sys} {i : Fin maxStates}

theorem Peaceful.served (h : Peaceful listenfd i fd stream response s a)
    (hstate : (s.connStates i).state ≠ .readRes) : Served listenfd i fd stream s a :=
  ⟨hstate, h.own, h.others, h.succeeds, h.asks⟩

theorem Peaceful.fromServer (h : Peaceful listenfd i fd stream response s a)
    (hstate : (s.connStates i).state = .readRes) : FromServer i response s a :=
  ⟨hstate, h.answers⟩

theorem Peaceful.apart (h : Peaceful listenfd i fd stream response s a)
    (hi : s.pc.slot ≠ some i) : fd ∉ s.touched a :=
  h.others hi fd (h.client ▸ client_mem_fds _)

theorem Peaceful.undisturbed (h : Peaceful listenfd i fd stream response s a)
    (hopen : fd ∈ s.sockets.opened) : Undisturbed listenfd i fd s a :=
  ⟨hopen, h.own, h.apart,
    fun ⟨hpc, ha⟩ => (h.succeeds (by rw [hpc]; rfl)).2 ha⟩

/-- The next bytes of the response are put behind those that have been read. -/
theorem store_isPrefix {held response : List UInt8} (hread : held <+: response)
    (hbytes : bytes <+: response.drop held.length) : store held held.length bytes <+: response := by
  obtain ⟨rest, rfl⟩ := hread
  rw [List.drop_left] at hbytes
  rw [store_length]
  exact (List.prefix_append_right_inj held).2 hbytes

/-- Until the response is there, the client's socket is open and has taken nothing. -/
structure Untouched (i : Fin maxStates) (fd : Int) (response : List UInt8) (s : Sys) : Prop where
  client : (s.connStates i).clientSocketFd = fd
  server : (s.connStates i).serverSocketFd ≠ fd
  opened : fd ∈ s.sockets.opened
  unsent : s.sockets.sent fd = []
  read : (s.connStates i).serverResponse <+: response

theorem Untouched.other (h : Untouched i fd response s)
    (hp : Peaceful listenfd i fd stream response s a)
    (hs : Step listenfd s a t) (hi : s.pc.slot ≠ some i) : Untouched i fd response t := by
  have hc : t.connStates i = s.connStates i :=
    (hs.connStates hi).resolve_right fun he => hp.own he.1
  have hk : s.sockets.Keeps t.sockets fd := hs.keeps h.opened (hp.apart hi)
  constructor <;> try rw [hc]
  · exact h.client
  · exact h.server
  · exact hk.opened
  · exact hk.sent.trans h.unsent
  · exact h.read

/-- A handler of the slot gives it a new record of the same client. -/
theorem Untouched.set (h : Untouched i fd response s)
    (hconn : t.connStates = Function.update s.connStates i c)
    (hopen : fd ∈ t.sockets.opened) (hsent : t.sockets.sent fd = s.sockets.sent fd)
    (hclient : c.clientSocketFd = fd) (hserver : c.serverSocketFd ≠ fd)
    (hread : c.serverResponse <+: response) : Untouched i fd response t := by
  have hc : t.connStates i = c := by rw [hconn, Function.update_self]
  constructor <;> try rw [hc]
  · exact hclient
  · exact hserver
  · exact hopen
  · exact hsent.trans h.unsent
  · exact hread

/-- The server gets a descriptor that is not open yet. -/
theorem Untouched.connect (h : Untouched i fd response s) (hnew : new ∉ s.sockets.opened)
    (hconn : t.connStates = Function.update s.connStates i
      { s.connStates i with serverSocketFd := new, state })
    (hsockets : t.sockets = s.sockets.openSocket new) : Untouched i fd response t := by
  have hk := Sockets.keeps_openSocket h.opened hnew
  rw [← hsockets] at hk
  refine h.set hconn hk.opened hk.sent h.client ?_ h.read
  rintro rfl
  exact hnew h.opened

theorem Untouched.own (h : Untouched i fd response s) (hstaged : Staged s i)
    (hp : Peaceful listenfd i fd stream response s a)
    (hstate : (s.connStates i).state ≠ .sendRes)
    (hs : Step listenfd s a t) (hi : s.pc.slot = some i) : Untouched i fd response t := by
  have hbusy := hstaged.busy hi
  have hown : ∀ {j}, s.pc.slot = some j → i = j := fun hj => Option.some.inj (hi.symm.trans hj)
  cases hs with
  | skip hpc | listen hpc | dispatch hpc =>
    rw [hpc] at hi
    cases hi
  | requestAgain | overrun | connectFails | requestDone | sendAgain | watchFails =>
    exact ⟨h.client, h.server, h.opened, h.unsent, h.read⟩
  | requestError | responseError => exact absurd rfl (hp.succeeds hi).1
  | sendError => exact absurd rfl (hp.succeeds hi).2
  | responseSent hpc | responseDone hpc | deliverAgain hpc | deliverError hpc =>
    cases hown (by rw [hpc]; rfl)
    rw [hpc] at hbusy
    exact absurd hbusy hstate
  | requestData hpc _ hc =>
    cases hown (by rw [hpc]; rfl)
    subst hc
    exact h.set rfl h.opened rfl h.client h.server h.read
  | rewrite hpc hc =>
    cases hown (by rw [hpc]; rfl)
    rw [hpc] at hbusy
    obtain ⟨_, _, _, rfl⟩ := reformatClientRequest_some hc hbusy.2
    exact h.set rfl h.opened rfl h.client h.server h.read
  | connect hpc _ hnew | connectUnregistered hpc _ hnew =>
    cases hown (by rw [hpc]; rfl)
    exact h.connect hnew rfl rfl
  | requestSent hpc =>
    cases hown (by rw [hpc]; rfl)
    have hsent (bytes) : (s.sockets.write (s.connStates i).serverSocketFd bytes).sent fd =
        s.sockets.sent fd := (Sockets.keeps_write h.opened h.server.symm).sent
    exact h.set rfl h.opened (hsent _) h.client h.server h.read
  | watchServer hpc | watchClient hpc | responseAgain hpc =>
    cases hown (by rw [hpc]; rfl)
    exact h.set rfl h.opened rfl h.client h.server h.read
  | responseData hpc =>
    cases hown (by rw [hpc]; rfl)
    obtain ⟨hbytes, -⟩ := hp.answers _ hpc rfl
    obtain ⟨-, -, hlength, -⟩ := hstaged.sound
    rw [← hlength] at hbytes
    refine h.set rfl h.opened rfl h.client h.server ?_
    rw [← hlength]
    exact store_isPrefix h.read hbytes
  | responseEnd hpc =>
    cases hown (by rw [hpc]; rfl)
    have hk := Sockets.keeps_close h.opened h.server.symm
    exact h.set rfl hk.opened hk.sent h.client h.server h.read

theorem Untouched.step (h : Untouched i fd response s) (hstaged : Staged s i)
    (hp : Peaceful listenfd i fd stream response s a)
    (hstate : (s.connStates i).state ≠ .sendRes)
    (hs : Step listenfd s a t) : Untouched i fd response t := by
  by_cases hi : s.pc.slot = some i
  · exact h.own hstaged hp hstate hs hi
  · exact h.other hp hs hi

/-- At some point of the run the slot has sent its request and waits for the response. -/
def Asked (listenfd : Int) (fds : Finset Int) (i : Fin maxStates) (request : List UInt8) (s : Sys)
    (actions : List Action) : Prop :=
  ∃ before after u, actions = before ++ after ∧ (proxy listenfd fds).exec s before = some u ∧
    (u.connStates i).state = .readRes ∧ u.sockets.sent (u.connStates i).serverSocketFd = request

theorem Asked.concat (h : Asked listenfd fds i request s actions) (a : Action) :
    Asked listenfd fds i request s (actions ++ [a]) := by
  obtain ⟨before, after, u, rfl, hu, hst, hsent⟩ := h
  exact ⟨before, after ++ [a], u, by simp, hu, hst, hsent⟩

/-- The four stages of a connection, where `asked` says that the request has been sent. -/
inductive Relay (i : Fin maxStates) (fd : Int) (stream request response : List UInt8)
    (asked : Prop) (s : Sys) : Prop
  | asking (h : Progress i fd stream request s) (hstate : (s.connStates i).state ≠ .readRes)
      (hu : Untouched i fd response s)
  | answering (h : Receiving i response True s) (ha : asked) (hu : Untouched i fd response s)
  | sending (h : Sending i fd [] response s) (ha : asked) (hopen : fd ∈ s.sockets.opened)
  | sent (h : Sent i fd [] response s) (ha : asked)

theorem Relay.mono (h : Relay i fd stream request response asked s) (himp : asked → asked') :
    Relay i fd stream request response asked' s := by
  cases h with
  | asking h hstate hu => exact .asking h hstate hu
  | answering h ha hu => exact .answering h (himp ha) hu
  | sending h ha hopen => exact .sending h (himp ha) hopen
  | sent h ha => exact .sent h (himp ha)

theorem Progress.state_ne (h : Progress i fd stream request s) :
    (s.connStates i).state ≠ .sendRes := by
  cases h with
  | reading h =>
    rw [h.conn]
    nofun
  | connecting h | forwarding h | forwarded h =>
    rw [h.state]
    nofun

/-- When the request has been sent, the slot waits for the response. -/
theorem Progress.answering (h : Progress i fd stream request t)
    (hstate : (t.connStates i).state = .readRes)
    (hread : (t.connStates i).serverResponse <+: response) :
    Receiving i response True t ∧ t.sockets.sent (t.connStates i).serverSocketFd = request := by
  cases h with
  | reading h =>
    rw [h.conn] at hstate
    cases hstate
  | connecting h => cases h.state.symm.trans hstate
  | forwarding h => cases h.state.symm.trans hstate
  | forwarded h =>
    refine ⟨⟨hstate, hread, fun hi => ?_⟩, h.sent⟩
    rw [h.pc] at hi
    cases hi

/-- The slot is handed to the client's socket when the end of the response has been read. -/
theorem Receiving.handed (h : Receiving i response ended s) (hs : Step listenfd s a t)
    (hi : s.pc.slot = some i) (hstate : (t.connStates i).state = .sendRes) : t.pc = .main := by
  have hst := h.state
  rcases h.busy hi with hpc | ⟨hpc, -⟩
  · cases hs with
    | responseData hpcj | responseEnd hpcj =>
      cases hpc.symm.trans hpcj
      simp only [Sys.setConn, Function.update_self, hst] at hstate
      cases hstate
    | responseAgain | responseError => rfl
    | watchFails hpcj => simp [hpc] at hpcj
    | _ hpcj => cases hpc.symm.trans hpcj
  · cases hs with
    | watchClient => rfl
    | watchFails =>
      rw [hst] at hstate
      cases hstate
    | _ hpcj => cases hpc.symm.trans hpcj

theorem Received.sending {ended : Prop} (h : Received i response ended t) (hstaged : Staged t i)
    (hpc : t.pc = .main) (hu : Untouched i fd response t) : Sending i fd [] response t := by
  obtain ⟨hstart, -⟩ := sending_start hstaged hpc h.state
  rw [hu.client, hu.unsent, h.whole] at hstart
  exact hstart

theorem Relay.step {l : RequestLine}
    (h : Relay i fd stream (cstring l.parsed.request) response asked s) (hw : l.WellFormed)
    (hl : l.target <+: stream) (hlt : response.length < maxObjectSize) (hfd : fd ≠ 0)
    (hstaged : Staged s i) (hstaged' : Staged t i)
    (hp : Peaceful listenfd i fd stream response s a) (hs : Step listenfd s a t) :
    Relay i fd stream (cstring l.parsed.request) response
      (asked ∨ (t.connStates i).state = .readRes ∧
        t.sockets.sent (t.connStates i).serverSocketFd = cstring l.parsed.request) t := by
  cases h with
  | asking h hstate hu =>
    have ht := h.step hw hl (hp.served hstate) hs
    have hu' := hu.step hstaged hp h.state_ne hs
    by_cases hstate' : (t.connStates i).state = .readRes
    · obtain ⟨hanswering, hasked⟩ := ht.answering hstate' hu'.read
      exact .answering hanswering (.inr ⟨hstate', hasked⟩) hu'
    · exact .asking ht hstate' hu'
  | answering h ha hu =>
    have hnot : (s.connStates i).state ≠ .sendRes := by
      rw [h.state]
      nofun
    have hu' := hu.step hstaged hp hnot hs
    by_cases hi : s.pc.slot = some i
    · rcases h.own hstaged.sound hlt (hp.fromServer h.state) hs hi with ht | ht
      · exact .answering (ht.mono fun _ => trivial) (.inl ha) hu'
      · exact .sending (ht.sending hstaged' (h.handed hs hi ht.state) hu') (.inl ha) hu'.opened
    · exact .answering ((h.other hs hi).mono fun _ => trivial) (.inl ha) hu'
  | sending h ha hopen =>
    by_cases hi : s.pc.slot = some i
    · rcases h.own hfd hlt.le (hp.undisturbed hopen) hp.takes hs hi with ⟨ht, hopen'⟩ | ht
      · exact .sending ht (.inl ha) hopen'
      · exact .sent ht (.inl ha)
    · obtain ⟨ht, hopen'⟩ := h.other (hp.undisturbed hopen) hs hi
      exact .sending ht (.inl ha) hopen'
  | sent h ha => exact absurd hp.client.symm h.client

end

end Cs324.EpollProxy
