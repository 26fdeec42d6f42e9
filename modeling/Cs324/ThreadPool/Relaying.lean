import Cs324.ThreadPool.Worker

namespace Cs324.ThreadPool
set_option autoImplicit true
open EpollProxy (maxObjectSize)

/-- The bytes that each `Write` in `send_response_to_client` takes, where the pointer `strPtr` is
given by the memory from there on. A count is of the bytes beyond the first. -/
def sendResponseToClient (broken : Bool) (strPtr : List UInt8) :
    Nat → List Nat → Except Stop (List (List UInt8))
  | 0, _ => .ok []
  | charsLeft + 1, [] => if broken then .error .exits else .ok [strPtr.take (charsLeft + 1)]
  | charsLeft + 1, count :: counts => do
    let charsWritten := min (count + 1) (charsLeft + 1)
    let sent ← sendResponseToClient broken (strPtr.drop charsWritten)
      (charsLeft + 1 - charsWritten) counts
    return strPtr.take charsWritten :: sent

/-- The second half of `act_as_server_and_client`, with what is written to the client. -/
def relay (serverRes : List UInt8) (server : Stream) (toClient : Sink) :
    Except Stop (List (List UInt8)) := do
  let (serverRes, numBytesRead) ← receiveServerResponse serverRes 0 server.reset server.reads
  sendResponseToClient toClient.broken serverRes numBytesRead toClient.counts

/-- Both loops end, and the client gets the bytes of the response. -/
def Relays (serverRes : List UInt8) (server : Stream) (toClient : Sink) : Prop :=
  ∃ sent, relay serverRes server toClient = .ok sent ∧ sent.flatten = received server.reads

/-- The writes are those of the loop that only counts. -/
theorem sendResponseToClient_writeLoop (broken : Bool) (strPtr : List UInt8) (n : Nat)
    (counts : List Nat) : (∃ sent, sendResponseToClient broken strPtr n counts = .ok sent) ↔
      writeLoop broken n counts = .ok () := by
  induction counts generalizing strPtr n with
  | nil =>
    cases n with
    | zero => simp [sendResponseToClient, writeLoop]
    | succ n => cases broken <;> simp [sendResponseToClient, writeLoop]
  | cons count counts ih =>
    cases n with
    | zero => simp [sendResponseToClient, writeLoop]
    | succ n =>
      have hleft : n + 1 - min (count + 1) (n + 1) = n + 1 - (count + 1) := by
        omega
      rw [writeLoop, ← ih (strPtr.drop (min (count + 1) (n + 1))), sendResponseToClient, hleft]
      constructor
      · rintro ⟨sent, h⟩
        obtain ⟨rest, hrest, -⟩ := bind_eq_ok.1 h
        exact ⟨rest, hrest⟩
      · rintro ⟨rest, hrest⟩
        exact ⟨_, bind_eq_ok.2 ⟨rest, hrest, rfl⟩⟩

/-- What has been taken is the front of the memory at `strPtr`, in order. -/
theorem sendResponseToClient_bytes {broken : Bool} {strPtr : List UInt8} {n : Nat}
    {counts : List Nat} (h : sendResponseToClient broken strPtr n counts = .ok sent) :
    sent.flatten = strPtr.take n := by
  induction counts generalizing strPtr n sent with
  | nil =>
    cases n with
    | zero =>
      cases h
      rfl
    | succ n =>
      cases broken with
      | true => cases h
      | false =>
        cases h
        exact List.append_nil _
  | cons count counts ih =>
    cases n with
    | zero =>
      cases h
      rfl
    | succ n =>
      obtain ⟨rest, hrest, h⟩ := bind_eq_ok.1 h
      cases h
      rw [List.flatten_cons, ih hrest, ← List.take_add]
      congr 1
      omega

theorem relay_ok {serverRes : List UInt8} {server : Stream} {toClient : Sink} :
    relay serverRes server toClient = .ok sent ↔ server.reset = false ∧
      (received server.reads).length ≤ serverRes.length ∧
      sendResponseToClient toClient.broken (filled serverRes server.reads)
        (received server.reads).length toClient.counts = .ok sent := by
  constructor
  · intro h
    obtain ⟨⟨block, n⟩, hreceive, hsend⟩ := bind_eq_ok.1 h
    obtain ⟨hreset, hfits, rfl, rfl⟩ := (receiveServerResponse_ok _ _ _).1 hreceive
    exact ⟨hreset, hfits, hsend⟩
  · rintro ⟨hreset, hfits, hsend⟩
    exact bind_eq_ok.2 ⟨_, (receiveServerResponse_ok _ _ _).2 ⟨hreset, hfits, rfl, rfl⟩, hsend⟩

theorem filled_take (block : List UInt8) (reads : List Chunk) :
    (filled block reads).take (received reads).length = received reads :=
  List.take_left

/-- Every response that fits the block is relayed, whatever its bytes are and however it is split
over the reads and the writes. -/
theorem relays_response (serverRes : List.Vector UInt8 maxObjectSize) {response : List Chunk}
    (hfits : (received response).length ≤ maxObjectSize) (counts : List Nat) :
    Relays serverRes.1 ⟨response, false⟩ ⟨counts, false⟩ := by
  obtain ⟨sent, hsend⟩ := (sendResponseToClient_writeLoop false (filled serverRes.1 response)
    (received response).length counts).2 ((writeLoop_ok ⟨counts, false⟩ _).2 (.inl rfl))
  refine ⟨sent, relay_ok.2 ⟨rfl, serverRes.2.symm ▸ hfits, hsend⟩, ?_⟩
  rw [sendResponseToClient_bytes hsend, filled_take]

/-- A response of ones that fills the block and leaves no terminator in it. -/
def fullResponse : List Chunk :=
  [⟨List.replicate maxObjectSize 1, mt (List.replicate_eq_nil_iff 1).1 (by decide)⟩]

theorem fullResponse_received : received fullResponse = List.replicate maxObjectSize 1 :=
  received_singleton _

theorem fullResponse_length : (received fullResponse).length = maxObjectSize := by
  rw [fullResponse_received, List.length_replicate]

theorem relays_full : Relays cleared.serverRes.1 ⟨fullResponse, false⟩ ⟨[0, 2], false⟩ :=
  relays_response cleared.serverRes fullResponse_length.le [0, 2]

end Cs324.ThreadPool
