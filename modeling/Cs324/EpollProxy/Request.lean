import Cs324.EpollProxy.Failure
import Cs324.EpollProxy.RequestLine

namespace Cs324.EpollProxy
set_option autoImplicit true

/-- A slot that has just been given a client. -/
def freshConn (fd : Int) : ConnState := { initConnState with clientSocketFd := fd }

def Action.data : Action → List UInt8
  | .read (.data bytes) => bytes
  | _ => []

/-- Until the slot has sent its request it is not given to another client, the handlers of other
slots read, write and close other descriptors than its own, its own calls of `read` and `write`
give no error but `EAGAIN`, and what it reads from the client are the next bytes of the stream. -/
def Served (listenfd : Int) (i : Fin maxStates) (fd : Int) (stream : List UInt8) (s : Sys)
    (a : Action) : Prop :=
  (s.connStates i).state ≠ .readRes ∧ ¬Attaches listenfd s i a ∧
    (s.pc.slot ≠ some i → ∀ own ∈ (s.connStates i).fds, own ∉ s.touched a) ∧
    (s.pc.slot = some i → a ≠ .read .error ∧ a ≠ .write .error) ∧
    (s.pc = .readRequest i → s.sockets.received fd ++ a.data <+: stream)

instance : Decidable (Served listenfd i fd stream s a) := by
  unfold Served
  infer_instance

structure Reading (i : Fin maxStates) (fd : Int) (stream : List UInt8) (s : Sys) : Prop where
  conn : s.connStates i = { freshConn fd with
    clientRequest := s.sockets.received fd
    bytesReadFromClient := (s.sockets.received fd).length }
  opened : fd ∈ s.sockets.opened
  received : s.sockets.received fd <+: stream
  busy : s.pc.slot = some i → s.pc = .readRequest i ∨
    s.pc = .rewriting i ∧ isCompleteRequest (s.connStates i).requestString

def ConnState.Built (c : ConnState) (request : List UInt8) : Prop :=
  cstring c.serverRequest = request ∧ c.bytesToWriteServer = request.length ∧
    c.serverRequest.length < maxObjectSize

/-- The request has been rewritten, and `connect_to_server` runs or has ended the proxy. -/
structure Connecting (i : Fin maxStates) (fd : Int) (request : List UInt8) (s : Sys) : Prop where
  pc : s.pc = .connecting i ∨ s.pc = .exited
  client : (s.connStates i).clientSocketFd = fd
  state : (s.connStates i).state = .readReq
  built : (s.connStates i).Built request
  written : (s.connStates i).bytesWrittenToServer = 0
  opened : fd ∈ s.sockets.opened
  complete : blankLine <:+: s.sockets.received fd

structure Forwarding (i : Fin maxStates) (fd : Int) (request : List UInt8) (s : Sys) : Prop where
  client : (s.connStates i).clientSocketFd = fd
  state : (s.connStates i).state = .sendReq
  built : (s.connStates i).Built request
  written : (s.connStates i).bytesWrittenToServer ≤ request.length
  opened : fd ∈ s.sockets.opened ∧ (s.connStates i).serverSocketFd ∈ s.sockets.opened
  sent : s.sockets.sent (s.connStates i).serverSocketFd =
    request.take (s.connStates i).bytesWrittenToServer
  complete : blankLine <:+: s.sockets.received fd
  busy : s.pc.slot = some i → s.pc = .sendRequest i ∨
    s.pc = .watchServer i ∧ (s.connStates i).bytesWrittenToServer = request.length

/-- The slot has sent the request and waits for the response. -/
structure Forwarded (i : Fin maxStates) (fd : Int) (request : List UInt8) (s : Sys) : Prop where
  pc : s.pc = .main
  state : (s.connStates i).state = .readRes
  sent : s.sockets.sent (s.connStates i).serverSocketFd = request
  complete : blankLine <:+: s.sockets.received fd

inductive Progress (i : Fin maxStates) (fd : Int) (stream request : List UInt8) (s : Sys) : Prop
  | reading (h : Reading i fd stream s)
  | connecting (h : Connecting i fd request s)
  | forwarding (h : Forwarding i fd request s)
  | forwarded (h : Forwarded i fd request s)

section
variable {l : RequestLine}

/-- Whatever part of the stream has been read when the blank line is seen, it starts with the
request line. -/
theorem target_prefix (hw : l.WellFormed) (hl : l.target <+: stream) (hp : p <+: stream)
    (hblank : blankLine <:+: cstring p) : ∃ rest, cstring p = l.target ++ rest := by
  rcases List.prefix_or_prefix_of_prefix hl ((List.takeWhile_prefix _).trans hp) with h | h
  · obtain ⟨rest, hrest⟩ := h
    exact ⟨rest, hrest.symm⟩
  · have hcr : 13 ∈ cstring p := hblank.subset (by decide)
    exact absurd (h.subset hcr) hw.cr_not_mem

theorem blankLine_of_complete (hc : isCompleteRequest (cstring p)) : blankLine <:+: cstring p := by
  rwa [isCompleteRequest, strstr_isSome] at hc

/-- So it is rewritten to the same request, if it fits the block. -/
theorem reformat_eq_some (hw : l.WellFormed) (hl : l.target <+: stream) (hp : p <+: stream)
    (hreq : ConnState.clientRequest c = p) (hempty : c.serverRequest = [])
    (hc : isCompleteRequest c.requestString) (block : List UInt8) :
    reformatClientRequest block c = some c' ↔ (cstring p).length < maxObjectSize ∧ c' = { c with
      host := l.parsed.host
      port := l.parsed.port
      serverRequest := l.parsed.request
      bytesToWriteServer := (cstring l.parsed.request).length } := by
  have hs := requestString_eq hreq hempty
  have hcomplete := hs ▸ hc
  obtain ⟨rest, hrest⟩ := target_prefix hw hl hp (blankLine_of_complete hcomplete)
  have h0 : 0 ∉ l.target ++ rest := hrest ▸ cstring_not_mem p
  rw [hrest] at hcomplete
  rw [reformatClientRequest_eq_some hc hempty block, hs, hrest, hw.fits_iff h0 hcomplete,
    hw.targetOf h0 hcomplete]

theorem reformat_built (hw : l.WellFormed) (hl : l.target <+: stream) (hp : p <+: stream)
    (hreq : ConnState.clientRequest c = p) (hempty : c.serverRequest = [])
    (hc : isCompleteRequest c.requestString) (h : reformatClientRequest block c = some c') :
    c'.Built (cstring l.parsed.request) := by
  have hlt := reformatClientRequest_lt h hc
  obtain ⟨_, rfl⟩ := (reformat_eq_some hw hl hp hreq hempty hc block).1 h
  exact ⟨rfl, rfl, hlt⟩

theorem reformat_succeeds (hw : l.WellFormed) (hl : l.target <+: stream) (hp : p <+: stream)
    (hreq : ConnState.clientRequest c = p) (hempty : c.serverRequest = [])
    (hc : isCompleteRequest c.requestString) (hlen : p.length < maxObjectSize)
    (block : List UInt8) : ∃ c', reformatClientRequest block c = some c' :=
  ⟨_, (reformat_eq_some hw hl hp hreq hempty hc block).2
    ⟨(cstring_length_le p).trans_lt hlen, rfl⟩⟩

end

theorem reformat_unsplit {l : RequestLine} (hw : l.WellFormed) (hl : l.target <+: request)
    (hblank : blankLine <:+ request) (hzero : 0 ∉ request) (hlen : request.length < maxObjectSize)
    (block : List UInt8) :
    (reformatClientRequest block { freshConn fd with
      clientRequest := request
      bytesReadFromClient := request.length }).map (fun c => cstring c.serverRequest) =
        some (cstring l.parsed.request) := by
  have hc : isCompleteRequest (ConnState.requestString { freshConn fd with
      clientRequest := request
      bytesReadFromClient := request.length }) := by
    rw [requestString_eq rfl rfl, cstring_eq_self hzero, isCompleteRequest, strstr_isSome]
    exact hblank.isInfix
  obtain ⟨c, hr⟩ := reformat_succeeds hw hl (List.prefix_refl _) rfl rfl hc hlen block
  have hb := reformat_built hw hl (List.prefix_refl _) rfl rfl hc hr
  rw [hr, Option.map_some, hb.1]

theorem Step.keeps_own (h : Step listenfd s a t) (hu : Served listenfd i fd stream s a)
    (hi : s.pc.slot ≠ some i) (hown : own ∈ (s.connStates i).fds)
    (hopen : own ∈ s.sockets.opened) : s.sockets.Keeps t.sockets own :=
  h.keeps hopen (hu.2.2.1 hi own hown)

theorem Step.conn_own (h : Step listenfd s a t) (hu : Served listenfd i fd stream s a)
    (hi : s.pc.slot ≠ some i) : t.connStates i = s.connStates i :=
  (h.connStates hi).resolve_right fun he => hu.2.1 he.1

theorem Reading.other (h : Reading i fd stream s) (hu : Served listenfd i fd stream s a)
    (hs : Step listenfd s a t) (hi : s.pc.slot ≠ some i) : Reading i fd stream t := by
  have hc := hs.conn_own hu hi
  have hown : fd ∈ (s.connStates i).fds := by
    rw [h.conn]
    exact Finset.mem_insert_self _ _
  have hk := hs.keeps_own hu hi hown h.opened
  constructor
  · rw [hc, hk.received]
    exact h.conn
  · exact hk.opened
  · rw [hk.received]
    exact h.received
  · intro ht
    left
    rw [hs.entered hi ht, hc, h.conn]
    rfl

theorem Forwarding.other (h : Forwarding i fd request s) (hu : Served listenfd i fd stream s a)
    (hs : Step listenfd s a t) (hi : s.pc.slot ≠ some i) : Forwarding i fd request t := by
  have hc := hs.conn_own hu hi
  have hfds : (s.connStates i).fds = {fd, (s.connStates i).serverSocketFd} := by
    rw [ConnState.fds, ConnState.serverFds, h.state, h.client]
  have hk := hs.keeps_own hu hi (by rw [hfds]; simp) h.opened.1
  have hk' := hs.keeps_own hu hi (by rw [hfds]; simp) h.opened.2
  constructor
  · rw [hc]
    exact h.client
  · rw [hc]
    exact h.state
  · rw [hc]
    exact h.built
  · rw [hc]
    exact h.written
  · rw [hc]
    exact ⟨hk.opened, hk'.opened⟩
  · rw [hc, hk'.sent]
    exact h.sent
  · rw [hk.received]
    exact h.complete
  · intro ht
    left
    rw [hs.entered hi ht, hc, h.state]
    rfl

theorem Reading.own {l : RequestLine} (h : Reading i fd stream s) (hw : l.WellFormed)
    (hl : l.target <+: stream) (hu : Served listenfd i fd stream s a)
    (hs : Step listenfd s a t) (hi : s.pc.slot = some i) :
    Progress i fd stream (cstring l.parsed.request) t := by
  obtain ⟨_, _, _, herror, hread⟩ := hu
  obtain ⟨hconn, hopen, hstream, hbusy⟩ := h
  rcases hbusy hi with hpc | ⟨hpc, hcomplete⟩
  · cases hs with
    | @requestData j c bytes hpcj hn hc =>
      cases hpc.symm.trans hpcj
      have hrec : (s.sockets.read fd bytes).received fd = s.sockets.received fd ++ bytes :=
        Function.update_self _ _ _
      have hcc : c = { freshConn fd with
          clientRequest := s.sockets.received fd ++ bytes
          bytesReadFromClient := (s.sockets.received fd ++ bytes).length } := by
        rw [hc, hconn, List.length_append]
        simp only [store_length]
      have hfd : (s.connStates i).clientSocketFd = fd := by
        rw [hconn]
        rfl
      apply Progress.reading
      constructor
      · simp only [Sys.setConn, Function.update_self, hfd, hrec]
        exact hcc
      · exact hopen
      · simp only [hfd, hrec]
        exact hread hpc
      · intro _
        simp only [Sys.setConn, Function.update_self]
        split
        next hyes => exact .inr ⟨rfl, hyes⟩
        next => exact .inl rfl
    | requestAgain => exact .reading ⟨hconn, hopen, hstream, fun he => by cases he⟩
    | requestError => exact absurd rfl (herror hi).1
    | watchFails hpcj => simp [hpc] at hpcj
    | _ hpcj => cases hpc.symm.trans hpcj
  · cases hs with
    | @rewrite j block c hpcj hc =>
      cases hpc.symm.trans hpcj
      have hreq : (s.connStates i).clientRequest = s.sockets.received fd := by rw [hconn]
      have hempty : (s.connStates i).serverRequest = [] := by
        rw [hconn]
        rfl
      have hbuilt := reformat_built hw hl hstream hreq hempty hcomplete hc
      have hblank : blankLine <:+: s.sockets.received fd := by
        rw [requestString_eq hreq hempty] at hcomplete
        exact (blankLine_of_complete hcomplete).trans (List.takeWhile_prefix _).isInfix
      obtain ⟨_, _, _, rfl⟩ := reformatClientRequest_some hc hcomplete
      apply Progress.connecting
      refine ⟨.inl rfl, ?_, ?_, ?_, ?_, hopen, hblank⟩ <;>
        simp only [Sys.setConn, Function.update_self]
      · rw [hconn]
        rfl
      · rw [hconn]
        rfl
      · exact hbuilt
      · rw [hconn]
        rfl
    | overrun => exact .reading ⟨hconn, hopen, hstream, fun he => by cases he⟩
    | watchFails hpcj => simp [hpc] at hpcj
    | _ hpcj => cases hpc.symm.trans hpcj

theorem Connecting.step (h : Connecting i fd request s) (hs : Step listenfd s a t) :
    Progress i fd stream request t := by
  obtain ⟨hpc, hclient, hstate, hbuilt, hwritten, hopen, hcomplete⟩ := h
  have hpc := hpc.resolve_right hs.running
  cases hs with
  | @connect j new hpcj hpos hnew =>
    cases hpc.symm.trans hpcj
    have hk := Sockets.keeps_openSocket hopen hnew
    apply Progress.forwarding
    refine ⟨?_, ?_, ?_, ?_, ?_, ?_, ?_, nofun⟩ <;>
      simp only [Sys.setConn, Function.update_self]
    · exact hclient
    · exact hbuilt
    · rw [hwritten]
      exact Nat.zero_le _
    · exact ⟨hk.opened, Finset.mem_insert_self _ _⟩
    · rw [hwritten]
      exact Function.update_self _ _ _
    · rw [hk.received]
      exact hcomplete
  | @connectUnregistered j new hpcj hpos hnew =>
    cases hpc.symm.trans hpcj
    have hk := Sockets.keeps_openSocket hopen hnew
    apply Progress.connecting
    refine ⟨.inr rfl, ?_, ?_, ?_, ?_, hk.opened, ?_⟩ <;>
      simp only [Sys.setConn, Function.update_self]
    · exact hclient
    · exact hstate
    · exact hbuilt
    · exact hwritten
    · rw [hk.received]
      exact hcomplete
  | connectFails =>
    exact .connecting ⟨.inr rfl, hclient, hstate, hbuilt, hwritten, hopen, hcomplete⟩
  | watchFails hpcj => simp [hpc] at hpcj
  | _ hpcj => cases hpc.symm.trans hpcj

theorem Forwarding.own (h : Forwarding i fd request s) (hu : Served listenfd i fd stream s a)
    (hs : Step listenfd s a t) (hi : s.pc.slot = some i) : Progress i fd stream request t := by
  obtain ⟨_, _, _, herror, _⟩ := hu
  obtain ⟨hclient, hstate, hbuilt, hwritten, hopen, hsent, hcomplete, hbusy⟩ := h
  obtain ⟨hstring, hto, hfits⟩ := hbuilt
  have hle := cstring_length_le (s.connStates i).serverRequest
  rw [hstring] at hle
  rcases hbusy hi with hpc | ⟨hpc, hall⟩
  · cases hs with
    | @requestSent j n hpcj hpos hn =>
      cases hpc.symm.trans hpcj
      rw [hto, sizeT_sub hwritten (by omega)] at hn
      have hload : load (s.connStates i).serverRequest (s.connStates i).bytesWrittenToServer n =
          load request (s.connStates i).bytesWrittenToServer n :=
        load_isPrefix (hstring ▸ List.takeWhile_prefix _) (by omega)
      have htake : request.take (s.connStates i).bytesWrittenToServer ++
          load request (s.connStates i).bytesWrittenToServer n =
          request.take ((s.connStates i).bytesWrittenToServer + n) :=
        take_append_load (by omega)
      apply Progress.forwarding
      refine ⟨?_, ?_, ?_, ?_, ?_, ?_, hcomplete, fun _ => .inl hpc⟩ <;>
        simp only [Sys.setConn, Function.update_self]
      · exact hclient
      · exact hstate
      · exact ⟨hstring, hto, hfits⟩
      · omega
      · exact hopen
      · simp only [Sockets.write, Function.update_self, hsent, hload]
        exact htake
    | requestDone hpcj hn =>
      cases hpc.symm.trans hpcj
      rw [hto, sizeT_sub hwritten (by omega)] at hn
      have hall : (s.connStates i).bytesWrittenToServer = request.length := by omega
      exact .forwarding ⟨hclient, hstate, ⟨hstring, hto, hfits⟩, hwritten, hopen, hsent, hcomplete,
        fun _ => .inr ⟨rfl, hall⟩⟩
    | sendAgain =>
      exact .forwarding ⟨hclient, hstate, ⟨hstring, hto, hfits⟩, hwritten, hopen, hsent, hcomplete,
        fun he => by cases he⟩
    | sendError => exact absurd rfl (herror hi).2
    | watchFails hpcj => simp [hpc] at hpcj
    | _ hpcj => cases hpc.symm.trans hpcj
  · cases hs with
    | watchServer hpcj =>
      cases hpc.symm.trans hpcj
      apply Progress.forwarded
      refine ⟨rfl, ?_, ?_, hcomplete⟩ <;> simp only [Sys.setConn, Function.update_self]
      rw [hsent, hall, List.take_length]
    | watchFails =>
      exact .forwarding ⟨hclient, hstate, ⟨hstring, hto, hfits⟩, hwritten, hopen, hsent, hcomplete,
        fun he => by cases he⟩
    | _ hpcj => cases hpc.symm.trans hpcj

theorem Progress.step {l : RequestLine} (h : Progress i fd stream (cstring l.parsed.request) s)
    (hw : l.WellFormed) (hl : l.target <+: stream) (hu : Served listenfd i fd stream s a)
    (hs : Step listenfd s a t) : Progress i fd stream (cstring l.parsed.request) t := by
  cases h with
  | reading h =>
    by_cases hi : s.pc.slot = some i
    · exact h.own hw hl hu hs hi
    · exact .reading (h.other hu hs hi)
  | connecting h => exact h.step hs
  | forwarding h =>
    by_cases hi : s.pc.slot = some i
    · exact h.own hu hs hi
    · exact .forwarding (h.other hu hs hi)
  | forwarded h => exact absurd h.state hu.1

theorem progress_start (hpc : s.pc = .main) (hslot : s.connStates i = freshConn fd)
    (hopen : fd ∈ s.sockets.opened) (hnew : s.sockets.received fd = []) :
    Progress i fd stream request s := by
  apply Progress.reading
  refine ⟨?_, hopen, ?_, ?_⟩
  · rw [hslot, hnew]
    rfl
  · rw [hnew]
    exact List.nil_prefix
  · intro hs
    rw [hpc] at hs
    cases hs

/-- What the slot has sent to the server when it waits for the response is the request as it is
rewritten when it comes in one piece, however it was split. Before the blank line there is no
server socket to write to, and when it has come the request is rewritten, if what has been read
leaves room for a terminator. -/
theorem request_sent_once {l : RequestLine} (hw : l.WellFormed) (hline : l.bytes <+: request)
    (hblank : blankLine <:+ request) (hzero : 0 ∉ request) (hlen : request.length < maxObjectSize)
    (hpc : s.pc = .main) (hslot : s.connStates i = freshConn fd) (hopen : fd ∈ s.sockets.opened)
    (hnew : s.sockets.received fd = [])
    (hrun : (proxy listenfd fds).Along (Served listenfd i fd (request ++ extra)) s actions)
    (hexec : (proxy listenfd fds).exec s actions = some t) :
    (blankLine <:+: t.sockets.received fd ∨
        (t.connStates i).serverSocketFd = 0 ∧ t.pc ≠ .sendRequest i) ∧
      ((t.connStates i).state = .readRes → ∀ block,
        (reformatClientRequest block { freshConn fd with
          clientRequest := request
          bytesReadFromClient := request.length }).map (fun c => cstring c.serverRequest) =
            some (t.sockets.sent (t.connStates i).serverSocketFd)) ∧
      (t.pc = .rewriting i → (t.sockets.received fd).length < maxObjectSize → ∀ block,
        (reformatClientRequest block (t.connStates i)).isSome) := by
  have hl : l.target <+: request := by
    apply List.IsPrefix.trans _ hline
    rw [RequestLine.bytes, List.append_assoc]
    exact List.prefix_append _ _
  have hlx : l.target <+: request ++ extra := hl.trans (List.prefix_append _ _)
  have h : Progress i fd (request ++ extra) (cstring l.parsed.request) t :=
    Machine.exec_invariant (progress_start hpc hslot hopen hnew)
      (fun ht hu hn => ht.step hw hlx hu (next_step hn)) hrun hexec
  cases h with
  | reading h =>
    refine ⟨.inr ⟨?_, fun ht => ?_⟩, fun ht => ?_, fun ht hlt block => ?_⟩
    · rw [h.conn]
      rfl
    · rcases h.busy (by rw [ht]; rfl) with hb | ⟨hb, _⟩ <;> cases ht.symm.trans hb
    · rw [h.conn] at ht
      cases ht
    · rcases h.busy (by rw [ht]; rfl) with hb | ⟨_, hc⟩
      · cases ht.symm.trans hb
      · obtain ⟨c, hc⟩ := reformat_succeeds hw hlx h.received (by rw [h.conn]) (by rw [h.conn]; rfl)
          hc hlt block
        rw [hc]
        rfl
  | connecting h =>
    refine ⟨.inl h.complete, fun ht => ?_, fun ht => ?_⟩
    · cases h.state.symm.trans ht
    · rcases h.pc with hb | hb <;> cases ht.symm.trans hb
  | forwarding h =>
    refine ⟨.inl h.complete, fun ht => ?_, fun ht => ?_⟩
    · cases h.state.symm.trans ht
    · rcases h.busy (by rw [ht]; rfl) with hb | ⟨hb, _⟩ <;> cases ht.symm.trans hb
  | forwarded h =>
    refine ⟨.inl h.complete, fun _ block => ?_, fun ht => ?_⟩
    · rw [h.sent]
      exact reformat_unsplit hw hl hblank hzero hlen block
    · cases h.pc.symm.trans ht

/-- A request that comes in three pieces, the last of which has a byte more, and is sent in two. -/
def splitRequest : List Action :=
  [.event (some 0) .none (.of []), .read (.data (chars "GET http://a/b HT")), .read .again,
    .event (some 0) .none (.of []), .read (.data (chars "TP/1.1\r\n\r")),
    .read (.data (chars "\nx")), .malloc [], .connect (some 6) true,
    .event (some 0) .none (.of []), .write (.count 100), .write .again,
    .event (some 0) .none (.of []), .write (.count 61), .write (.count 0), .epollCtl true]

theorem request_sent_split : ∃ t : Sys, (t.connStates 0).state = .readRes ∧ ∀ block,
    (reformatClientRequest block { freshConn 5 with
      clientRequest := chars "GET http://a/b HTTP/1.1\r\n\r\n"
      bytesReadFromClient := (chars "GET http://a/b HTTP/1.1\r\n\r\n").length }).map
        (fun c => cstring c.serverRequest) =
      some (t.sockets.sent (t.connStates 0).serverSocketFd) := by
  obtain ⟨s, _, hpc, hslot, hopen, hnew, hrun, he⟩ := Machine.exists_reach_of_exec
    (proxy 3 {0, 1, 2, 3, 4}) (fun _ _ => True) [.event none .none (.of [5])]
    (P := fun s => s.pc = .main ∧ s.connStates 0 = freshConn 5 ∧ 5 ∈ s.sockets.opened ∧
      s.sockets.received 5 = [] ∧
      (proxy 3 {0, 1, 2, 3, 4}).Along
        (Served 3 0 5 (chars "GET http://a/b HTTP/1.1\r\n\r\n" ++ chars "x")) s splitRequest ∧
      ((proxy 3 {0, 1, 2, 3, 4}).exec s splitRequest).map (fun t => (t.connStates 0).state) =
        some .readRes)
    (Machine.along_true _ _) (by decide +kernel)
  obtain ⟨t, ht, hst⟩ := Option.map_eq_some_iff.1 he
  have h := request_sent_once
    (l := ⟨chars "GET", chars "a", none, chars "b", chars "HTTP/1.1"⟩)
    ⟨by decide, by decide, by decide +kernel, by decide, by decide, by decide, by decide, by decide,
      by decide, by decide⟩
    (by decide +kernel) (by decide +kernel) (by decide +kernel) (by decide +kernel)
    hpc hslot hopen hnew hrun ht
  exact ⟨t, hst, h.2.1 hst⟩

end Cs324.EpollProxy
