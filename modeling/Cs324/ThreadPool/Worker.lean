import Cs324.ThreadPool.Leftovers

namespace Cs324.ThreadPool
set_option autoImplicit true
open EpollProxy (maxObjectSize blankLine isCompleteRequest Target)

/-- What happens to one address of the list: no socket is opened for it, or `connect` fails, or it
succeeds. -/
inductive Attempt
  | noSocket
  | refused
  | connected
  deriving DecidableEq

/-- What `write` to a socket returns: each call takes one byte more than its count, or all that are
left if they are fewer. After these calls it returns -1 if the socket is broken; else it takes
all. -/
structure Sink where
  counts : List Nat
  broken : Bool

/-- All that the worker is told about its connection from outside. -/
structure Peers where
  client : Stream
  lookup : List UInt8 → List UInt8 → Option (List Attempt)
  toServer : Sink
  server : Stream
  toClient : Sink

/-- The loop over the addresses in `send_request_to_server`. -/
def connectLoop : List Attempt → Except Stop Unit
  | [] => .error .exits
  | .connected :: _ => .ok ()
  | .noSocket :: attempts | .refused :: attempts => connectLoop attempts

/-- The loops that write `charsLeft` bytes to the server or to the client. -/
def writeLoop (broken : Bool) : Nat → List Nat → Except Stop Unit
  | 0, _ => .ok ()
  | _ + 1, [] => if broken then .error .exits else .ok ()
  | charsLeft + 1, count :: counts => writeLoop broken (charsLeft + 1 - (count + 1)) counts

def sendRequestToServer (p : Peers) (r : Reformatted) : Except Stop Unit := do
  let attempts ← orError .exits (p.lookup r.hostname r.port)
  connectLoop attempts
  writeLoop p.toServer.broken r.serverReq.length p.toServer.counts

/-- The block for the response and the number of bytes read into it. The `strcat(server_res, "\0")`
behind the loop appends the empty string, which changes no byte. -/
def receiveServerResponse (serverRes : List UInt8) (numBytesRead : Nat) (reset : Bool) :
    List Chunk → Except Stop (List UInt8 × Nat)
  | [] => if reset then .error .exits else .ok (serverRes, numBytesRead)
  | chunk :: reads => do
    let serverRes ← orError .undefined (storeIn serverRes numBytesRead chunk.1)
    receiveServerResponse serverRes (numBytesRead + chunk.1.length) reset reads

/-- What is done for a connection when `act_as_server_and_client` returns: the server that was
contacted and what the client got. -/
structure Handled where
  unread : List Chunk
  server : Option (List UInt8 × List UInt8)
  response : List UInt8

def actAsServerAndClient (m : Memory) (p : Peers) : Except Stop Handled := do
  let (reformatted, unread) ← clientToProxy m p.client
  match reformatted with
  | none => .error .unset
  | some r =>
    sendRequestToServer p r
    let (serverRes, numBytesRead) ←
      receiveServerResponse m.serverRes.1 0 p.server.reset p.server.reads
    writeLoop p.toClient.broken numBytesRead p.toClient.counts
    return { unread, server := some (r.hostname, r.port), response := serverRes.take numBytesRead }

/-- The worker comes back to its loop, and has contacted a server only for a request whose blank
line had been received. -/
def Returns (m : Memory) (p : Peers) : Prop :=
  ∃ h, actAsServerAndClient m p = .ok h ∧ (h.server.isSome →
    ∃ reads, p.client.reads = reads ++ h.unread ∧ blankLine <:+: received reads)

theorem connectLoop_ok : connectLoop attempts = .ok () ↔ .connected ∈ attempts := by
  induction attempts with
  | nil => simp [connectLoop]
  | cons attempt attempts ih =>
    cases attempt with
    | connected => simp [connectLoop]
    | noSocket => simpa [connectLoop] using ih
    | refused => simpa [connectLoop] using ih

/-- Whether `n` bytes get through. -/
def Sink.Takes (s : Sink) (n : Nat) : Prop :=
  s.broken = false ∨ n ≤ (s.counts.map (· + 1)).sum

theorem writeLoop_ok (s : Sink) (n : Nat) : writeLoop s.broken n s.counts = .ok () ↔ s.Takes n := by
  obtain ⟨counts, broken⟩ := s
  simp only [Sink.Takes]
  induction counts generalizing n with
  | nil =>
    cases n with
    | zero => simp [writeLoop]
    | succ n => cases broken <;> simp [writeLoop]
  | cons count counts ih =>
    cases n with
    | zero => simp [writeLoop]
    | succ n =>
      rw [writeLoop, ih, List.map_cons, List.sum_cons]
      exact or_congr_right (by omega)

theorem sendRequestToServer_ok {p : Peers} {r : Reformatted} :
    sendRequestToServer p r = .ok () ↔ ∃ attempts, p.lookup r.hostname r.port = some attempts ∧
      .connected ∈ attempts ∧ p.toServer.Takes r.serverReq.length := by
  constructor
  · intro h
    obtain ⟨attempts, hl, h⟩ := bind_eq_ok.1 h
    obtain ⟨_, hc, hw⟩ := bind_eq_ok.1 h
    exact ⟨attempts, orError_eq_ok.1 hl, connectLoop_ok.1 hc, (writeLoop_ok _ _).1 hw⟩
  · rintro ⟨attempts, hl, hc, hw⟩
    exact bind_eq_ok.2 ⟨attempts, orError_eq_ok.2 hl,
      bind_eq_ok.2 ⟨(), connectLoop_ok.2 hc, (writeLoop_ok _ _).2 hw⟩⟩

theorem receiveServerResponse_filled {block : List UInt8} {before : List Chunk} (reset : Bool)
    (reads : List Chunk) (hb : (received before).length ≤ block.length) :
    receiveServerResponse (filled block before) (received before).length reset reads =
      .ok (serverRes, n) ↔ reset = false ∧ (received (before ++ reads)).length ≤ block.length ∧
        serverRes = filled block (before ++ reads) ∧
        n = (received (before ++ reads)).length := by
  induction reads generalizing before with
  | nil =>
    rw [receiveServerResponse, List.append_nil]
    cases reset with
    | true => simp
    | false =>
      rw [if_neg Bool.false_ne_true]
      simp [hb, eq_comm]
  | cons chunk reads ih =>
    rw [receiveServerResponse, storeIn_filled _ _ _ hb, ← received_snoc_length,
      List.append_cons before chunk reads]
    by_cases hfit : (received (before ++ [chunk])).length ≤ block.length
    · rw [if_pos hfit]
      exact ih hfit
    · rw [if_neg hfit]
      constructor
      · intro h
        cases h
      · rintro ⟨-, h, -⟩
        rw [received_append, List.length_append] at h
        omega

theorem receiveServerResponse_ok (block : List UInt8) (reset : Bool) (reads : List Chunk) :
    receiveServerResponse block 0 reset reads = .ok (serverRes, n) ↔ reset = false ∧
      (received reads).length ≤ block.length ∧
      serverRes = filled block reads ∧ n = (received reads).length :=
  @receiveServerResponse_filled _ _ block [] reset reads (Nat.zero_le _)

theorem actAsServerAndClient_ok {m : Memory} {p : Peers}
    (h : actAsServerAndClient m p = .ok handled) :
    ∃ r, clientToProxy m p.client = .ok (some r, handled.unread) ∧
      sendRequestToServer p r = .ok () ∧ p.server.reset = false ∧
      (received p.server.reads).length ≤ maxObjectSize ∧
      p.toClient.Takes (received p.server.reads).length ∧
      handled.server = some (r.hostname, r.port) := by
  obtain ⟨⟨reformatted, unread⟩, hfirst, h⟩ := bind_eq_ok.1 h
  cases reformatted with
  | none => cases h
  | some r =>
    obtain ⟨_, hsend, h⟩ := bind_eq_ok.1 h
    obtain ⟨⟨serverRes, n⟩, hreceive, h⟩ := bind_eq_ok.1 h
    obtain ⟨_, hwrite, h⟩ := bind_eq_ok.1 h
    cases h
    obtain ⟨hreset, hfits, -, rfl⟩ := (receiveServerResponse_ok _ _ _).1 hreceive
    exact ⟨r, hfirst, hsend, hreset, m.serverRes.2 ▸ hfits, (writeLoop_ok _ _).1 hwrite, rfl⟩

/-- What it takes for a connection whose request is complete with the read `last` and is for the
target `t`. -/
structure Smooth (m : Memory) (p : Peers) (before : List Chunk) (last : Chunk) (t : Target) :
    Prop where
  blank : blankLine <:+: received (before ++ [last])
  completed : Completed m.clientReq.1 before last
  parsed : parseRequest m (cstring (filled m.clientReq.1 (before ++ [last]))) = some t
  terminated : 0 ∈ m.serverReq.1
  room : (cstring m.serverReq.1 ++ t.request).length < httpRequestMaxSize
  reached : ∃ attempts, p.lookup t.host t.port = some attempts ∧ .connected ∈ attempts
  sent : p.toServer.Takes (cstring m.serverReq.1 ++ t.request).length
  answered : p.server.reset = false
  fits : (received p.server.reads).length ≤ maxObjectSize
  delivered : p.toClient.Takes (received p.server.reads).length

theorem Smooth.returns {m : Memory} {p : Peers} (h : Smooth m p before last t)
    (he : p.client.reads = before ++ last :: unread) : Returns m p := by
  obtain ⟨attempts, hl, hconnected⟩ := h.reached
  set r : Reformatted := ⟨t.host, t.port, cstring m.serverReq.1 ++ t.request⟩
  obtain ⟨hfirst, hreads⟩ := clientToProxy_iff.2 ⟨before, last, he, h.blank, h.completed,
    reformatClientRequest_iff.2 ⟨h.completed.complete, t, h.parsed, h.terminated, h.room, rfl⟩⟩
  have hsend : sendRequestToServer p r = .ok () :=
    sendRequestToServer_ok.2 ⟨attempts, hl, hconnected, h.sent⟩
  have hreceive := (receiveServerResponse_ok m.serverRes.1 p.server.reset p.server.reads).2
    ⟨h.answered, m.serverRes.2.symm ▸ h.fits, rfl, rfl⟩
  have hwrite := (writeLoop_ok p.toClient _).2 h.delivered
  exact ⟨_, bind_eq_ok.2 ⟨_, hfirst, bind_eq_ok.2 ⟨_, hsend, bind_eq_ok.2 ⟨_, hreceive,
    bind_eq_ok.2 ⟨_, hwrite, rfl⟩⟩⟩⟩, fun _ => hreads⟩

theorem Returns.smooth {m : Memory} {p : Peers} (h : Returns m p) : ∃ before last unread t,
    p.client.reads = before ++ last :: unread ∧ Smooth m p before last t := by
  obtain ⟨handled, hrun, hcontact⟩ := h
  obtain ⟨r, hfirst, hsend, hreset, hfits, hwrite, hserver⟩ := actAsServerAndClient_ok hrun
  have hreads := hcontact (by rw [hserver, Option.isSome_some])
  obtain ⟨before, last, he, hblank, hc, hr⟩ := clientToProxy_iff.1 ⟨hfirst, hreads⟩
  obtain ⟨-, t, ht, hterm, hroom, rfl⟩ := reformatClientRequest_iff.1 hr
  obtain ⟨attempts, hl, hconnected, hsent⟩ := sendRequestToServer_ok.1 hsend
  exact ⟨before, last, handled.unread, t, he, hblank, hc, ht, hterm, hroom,
    ⟨attempts, hl, hconnected⟩, hsent, hreset, hfits, hwrite⟩

/-- With cleared memory and peers that neither fail nor send too much, a request that fits is
served. -/
theorem returns_cleared {l : Request} {p : Peers} (hl : l.WellFormed)
    (hm : l.method.length < methodSize) (hport : (l.parsed cleared).port.length < portMaxSize)
    (hc : received p.client.reads = l.bytes)
    (hlookup : p.lookup l.host (l.parsed cleared).port = some attempts)
    (hconnected : .connected ∈ attempts) (hserver : p.toServer.broken = false)
    (hreset : p.server.reset = false) (hfits : (received p.server.reads).length ≤ maxObjectSize)
    (hclient : p.toClient.broken = false) : Returns cleared p := by
  obtain ⟨before, last, unread, he, hblank, hready⟩ := cleared_ready hl hm hport hc
  obtain ⟨-, hr⟩ := (ready_iff hl cleared (received_front hc he) hblank).2 ⟨hready, rfl⟩
  obtain ⟨-, t, ht, hterm, hroom, hmade⟩ := reformatClientRequest_iff.1 hr
  obtain ⟨hhost, hport, -⟩ := Reformatted.mk.inj hmade
  refine Smooth.returns ⟨hblank, hready.completed, ht, hterm, hroom, ⟨attempts, ?_, hconnected⟩,
    .inl hserver, hreset, hfits, .inl hclient⟩ he
  rw [← hhost, ← hport]
  exact hlookup

/-- Exactly when the worker comes back from its connection. -/
theorem returns_iff (m : Memory) (p : Peers) :
    Returns m p ↔ ∃ before last unread t,
      p.client.reads = before ++ last :: unread ∧ Smooth m p before last t := by
  constructor
  · exact Returns.smooth
  · rintro ⟨before, last, unread, t, he, h⟩
    exact h.returns he

/-- A client that sends nothing, and another one that resets its connection. -/
def silent (reset : Bool) : Peers where
  client := ⟨[], reset⟩
  lookup := fun _ _ => some [.connected]
  toServer := ⟨[], false⟩
  server := ⟨[], false⟩
  toClient := ⟨[], false⟩

theorem silent_client_stops : ¬ Returns cleared (silent false) ∧
    actAsServerAndClient cleared (silent false) = .error .unset ∧
    actAsServerAndClient cleared (silent true) = .error .exits := by
  have hunset : actAsServerAndClient cleared (silent false) = .error .unset := rfl
  refine ⟨?_, hunset, rfl⟩
  rintro ⟨h, hrun, -⟩
  cases hunset.symm.trans hrun

end Cs324.ThreadPool
