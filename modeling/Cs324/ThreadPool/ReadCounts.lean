import Cs324.ThreadPool.Reading

namespace Cs324.ThreadPool
set_option autoImplicit true
open EpollProxy (maxObjectSize isCompleteRequest)

/-- A call of `Read`: where in the block it stores, and how many bytes it returns. It always asks
for `MAX_OBJECT_SIZE` bytes. -/
structure ReadCall where
  offset : Nat
  returned : Nat

/-- The calls in the loop of `get_client_request`, up to one that leaves the block. `beyond` is the
memory that comes after the block, where a string without a terminator goes on. -/
def clientCalls (beyond clientReq : List UInt8) (offset : Nat) : List Chunk → List ReadCall
  | [] => [⟨offset, 0⟩]
  | chunk :: reads =>
    ⟨offset, chunk.1.length⟩ ::
      match storeIn clientReq offset chunk.1 with
      | none => []
      | some clientReq =>
        if isCompleteRequest (cstring (clientReq ++ beyond)) then []
        else clientCalls beyond clientReq (offset + chunk.1.length) reads

/-- The calls in the loop of `receive_server_response`. -/
def serverCalls (numBytesRead : Nat) : List Chunk → List ReadCall
  | [] => [⟨numBytesRead, 0⟩]
  | chunk :: reads =>
    ⟨numBytesRead, chunk.1.length⟩ :: serverCalls (numBytesRead + chunk.1.length) reads

/-- No call asks for bytes beyond the block. -/
def AsksWithin (calls : List ReadCall) : Prop :=
  ∀ call ∈ calls, call.offset + maxObjectSize ≤ maxObjectSize

/-- No byte that is returned is stored beyond the block. -/
def StoresWithin (calls : List ReadCall) : Prop :=
  ∀ call ∈ calls, call.offset + call.returned ≤ maxObjectSize

section
variable {beyond block : List UInt8} {before reads : List Chunk}

theorem asksWithin_cons {call : ReadCall} {calls : List ReadCall} :
    AsksWithin (call :: calls) ↔ call.offset = 0 ∧ AsksWithin calls := by
  rw [AsksWithin, List.forall_mem_cons]
  exact and_congr_left fun _ => by omega

theorem storesWithin_cons {call : ReadCall} {calls : List ReadCall} :
    StoresWithin (call :: calls) ↔ call.offset + call.returned ≤ maxObjectSize ∧
      StoresWithin calls :=
  List.forall_mem_cons

theorem clientCalls_cons (before : List Chunk) (hb : (received before).length ≤ block.length)
    (beyond : List UInt8) (chunk : Chunk) (reads : List Chunk) :
    clientCalls beyond (filled block before) (received before).length (chunk :: reads) =
      ⟨(received before).length, chunk.1.length⟩ ::
        if (received (before ++ [chunk])).length ≤ block.length then
          if isCompleteRequest (cstring (filled block (before ++ [chunk]) ++ beyond)) then []
          else clientCalls beyond (filled block (before ++ [chunk]))
            (received (before ++ [chunk])).length reads
        else [] := by
  rw [clientCalls, storeIn_filled _ _ _ hb, ← received_snoc_length]
  by_cases hfit : (received (before ++ [chunk])).length ≤ block.length
  · rw [if_pos hfit, if_pos hfit]
  · rw [if_neg hfit, if_neg hfit]

/-- The reads that the loop comes to are those before which nothing is complete. -/
def Reached (beyond block : List UInt8) (before more : List Chunk) : Prop :=
  ∀ p, p <+: more → p ≠ [] → ¬ isCompleteRequest (cstring (filled block (before ++ p) ++ beyond))

theorem reached_nil : Reached beyond block before [] := by
  intro p hp hne
  exact absurd (List.prefix_nil.1 hp) hne

theorem reached_cons {chunk : Chunk} {more : List Chunk} :
    Reached beyond block before (chunk :: more) ↔
      ¬ isCompleteRequest (cstring (filled block (before ++ [chunk]) ++ beyond)) ∧
        Reached beyond block (before ++ [chunk]) more := by
  constructor
  · intro h
    refine ⟨h _ (List.prefix_append [chunk] more) (by simp), ?_⟩
    intro p hp _
    rw [List.append_assoc]
    exact h _ ((List.prefix_cons_inj chunk).2 hp) (by simp)
  · rintro ⟨hc, h⟩ p hp hne
    cases p with
    | nil => exact absurd rfl hne
    | cons c p =>
      obtain ⟨rfl, hrest⟩ := List.cons_prefix_cons.1 hp
      by_cases hpn : p = []
      · subst hpn
        exact hc
      · rw [List.append_cons]
        exact h p hrest hpn

theorem storesWithin_clientCalls (hblock : block.length = maxObjectSize) (before : List Chunk)
    (hb : (received before).length ≤ block.length) :
    StoresWithin (clientCalls beyond (filled block before) (received before).length reads) ↔
      ∀ more last, more ++ [last] <+: reads → Reached beyond block before more →
        (received (before ++ more ++ [last])).length ≤ maxObjectSize := by
  induction reads generalizing before with
  | nil =>
    rw [clientCalls, storesWithin_cons]
    refine iff_of_true ⟨hblock ▸ hb, fun _ hm => nomatch hm⟩ ?_
    intro more last hp
    have hlength := hp.length_le
    simp at hlength
  | cons chunk reads ih =>
    have hlength := received_snoc_length before chunk
    rw [clientCalls_cons before hb, storesWithin_cons]
    dsimp only
    rw [← hlength, hblock]
    by_cases hfit : (received (before ++ [chunk])).length ≤ maxObjectSize
    · rw [if_pos hfit]
      by_cases hc : isCompleteRequest (cstring (filled block (before ++ [chunk]) ++ beyond))
      · rw [if_pos hc]
        refine iff_of_true ⟨hfit, fun _ hm => nomatch hm⟩ ?_
        intro more last hp hreached
        cases more with
        | nil =>
          obtain ⟨rfl, -⟩ := List.cons_prefix_cons.1 hp
          rw [List.append_nil]
          exact hfit
        | cons c more =>
          obtain ⟨rfl, -⟩ := List.cons_prefix_cons.1 hp
          exact absurd hc (reached_cons.1 hreached).1
      · rw [if_neg hc, ih _ (hblock ▸ hfit)]
        constructor
        · rintro ⟨-, h⟩ more last hp hreached
          cases more with
          | nil =>
            obtain ⟨rfl, -⟩ := List.cons_prefix_cons.1 hp
            rw [List.append_nil]
            exact hfit
          | cons c more =>
            obtain ⟨rfl, hrest⟩ := List.cons_prefix_cons.1 hp
            rw [List.append_cons before c more]
            exact h more last hrest (reached_cons.1 hreached).2
        · intro h
          refine ⟨hfit, fun more last hp hreached => ?_⟩
          rw [← List.append_cons]
          exact h (chunk :: more) last ((List.prefix_cons_inj chunk).2 hp)
            (reached_cons.2 ⟨hc, hreached⟩)
    · rw [if_neg hfit]
      constructor
      · rintro ⟨h, -⟩
        exact absurd h hfit
      · intro h
        have hfirst := h [] chunk (List.prefix_append [chunk] reads) reached_nil
        rw [List.append_nil] at hfirst
        exact absurd hfirst hfit

theorem asks_client_offset (h : AsksWithin (clientCalls beyond block offset reads)) :
    offset = 0 := by
  cases reads with
  | nil => exact (asksWithin_cons.1 h).1
  | cons chunk reads => exact (asksWithin_cons.1 h).1

theorem asks_server_offset (h : AsksWithin (serverCalls n reads)) : n = 0 := by
  cases reads with
  | nil => exact (asksWithin_cons.1 h).1
  | cons chunk reads => exact (asksWithin_cons.1 h).1

theorem asksWithin_nil : AsksWithin [] := fun _ hm => nomatch hm

theorem storesWithin_nil : StoresWithin [] := fun _ hm => nomatch hm

theorem asksWithin_clientCalls (hblock : block.length = maxObjectSize)
    (hreads : ∀ chunk ∈ reads, chunk.1.length ≤ maxObjectSize) :
    AsksWithin (clientCalls beyond block 0 reads) ↔
      ∀ chunk ∈ reads.head?, isCompleteRequest (cstring (filled block [chunk] ++ beyond)) := by
  cases reads with
  | nil => exact iff_of_true (asksWithin_cons.2 ⟨rfl, asksWithin_nil⟩) (fun _ hm => nomatch hm)
  | cons chunk reads =>
    have hfit : (received [chunk]).length ≤ block.length := by
      rw [received_singleton, hblock]
      exact hreads chunk List.mem_cons_self
    have hcalls := clientCalls_cons [] (Nat.zero_le block.length) beyond chunk reads
    rw [List.nil_append, if_pos hfit] at hcalls
    have hhead : (∀ c ∈ (chunk :: reads).head?,
        isCompleteRequest (cstring (filled block [c] ++ beyond))) ↔
          isCompleteRequest (cstring (filled block [chunk] ++ beyond)) := by
      simp
    rw [hhead]
    refine (Eq.to_iff (congrArg AsksWithin hcalls)).trans (asksWithin_cons.trans ?_)
    by_cases hc : isCompleteRequest (cstring (filled block [chunk] ++ beyond))
    · rw [if_pos hc]
      exact iff_of_true ⟨rfl, asksWithin_nil⟩ hc
    · rw [if_neg hc]
      refine iff_of_false (fun h => ?_) hc
      have hzero := asks_client_offset h.2
      rw [received_singleton] at hzero
      exact chunk.2 (List.eq_nil_of_length_eq_zero hzero)

theorem asksWithin_serverCalls (reads : List Chunk) :
    AsksWithin (serverCalls 0 reads) ↔ reads = [] := by
  cases reads with
  | nil => exact iff_of_true (asksWithin_cons.2 ⟨rfl, asksWithin_nil⟩) rfl
  | cons chunk reads =>
    refine iff_of_false (fun h => ?_) (List.cons_ne_nil _ _)
    have hzero := asks_server_offset (asksWithin_cons.1 h).2
    rw [Nat.zero_add] at hzero
    exact chunk.2 (List.eq_nil_of_length_eq_zero hzero)

theorem storesWithin_serverCalls (before : List Chunk)
    (hb : (received before).length ≤ maxObjectSize) :
    StoresWithin (serverCalls (received before).length reads) ↔
      (received (before ++ reads)).length ≤ maxObjectSize := by
  induction reads generalizing before with
  | nil =>
    rw [serverCalls, storesWithin_cons, List.append_nil]
    exact and_iff_left storesWithin_nil
  | cons chunk reads ih =>
    have hlength := received_snoc_length before chunk
    rw [serverCalls, storesWithin_cons, List.append_cons, ← hlength]
    constructor
    · rintro ⟨hfit, h⟩
      rw [hlength] at hfit
      exact (ih _ (hlength ▸ hfit)).1 h
    · intro h
      have hfit : (received (before ++ [chunk])).length ≤ maxObjectSize := by
        apply le_trans _ h
        rw [received_append (before ++ [chunk]), List.length_append]
        exact Nat.le_add_right _ _
      exact ⟨hlength ▸ hfit, (ih _ hfit).2 h⟩

/-- A loop that ends within defined behaviour has stored nothing beyond the block. -/
theorem getClientRequest_stores (hblock : block.length = maxObjectSize) (hd : offset ≤ block.length)
    (h : getClientRequest block offset reset reads = .ok result) (beyond : List UInt8) :
    StoresWithin (clientCalls beyond block offset reads) := by
  induction reads generalizing block offset with
  | nil => exact storesWithin_cons.2 ⟨hblock ▸ hd, storesWithin_nil⟩
  | cons chunk reads ih =>
    rw [getClientRequest] at h
    obtain ⟨stored, hstored, h⟩ := bind_eq_ok.1 h
    have hs := orError_eq_ok.1 hstored
    obtain ⟨hfit, hlength⟩ := storeIn_some hs
    obtain ⟨h0, h⟩ := ensure_eq_ok.1 h
    rw [clientCalls, storesWithin_cons, hs, ← hblock]
    dsimp only
    rw [cstring_inside h0]
    by_cases hc : isCompleteRequest (cstring stored)
    · rw [if_pos hc]
      exact ⟨hfit, storesWithin_nil⟩
    · rw [if_neg hc] at h ⊢
      exact ⟨hfit, ih (hlength.trans hblock) (hlength ▸ hfit) h⟩

end

/-- Exactly when the loops ask for nothing beyond their blocks, and when nothing is stored there. -/
theorem reads_within_iff (block : List.Vector UInt8 maxObjectSize) (beyond : List UInt8)
    {client : List Chunk} (hclient : ∀ chunk ∈ client, chunk.1.length ≤ maxObjectSize)
    (server : List Chunk) :
    (AsksWithin (clientCalls beyond block.1 0 client) ↔
      ∀ chunk ∈ client.head?, isCompleteRequest (cstring (filled block.1 [chunk] ++ beyond))) ∧
    (StoresWithin (clientCalls beyond block.1 0 client) ↔
      ∀ before last, before ++ [last] <+: client → Reached beyond block.1 [] before →
        (received (before ++ [last])).length ≤ maxObjectSize) ∧
    (AsksWithin (serverCalls 0 server) ↔ server = []) ∧
    (StoresWithin (serverCalls 0 server) ↔ (received server).length ≤ maxObjectSize) :=
  ⟨asksWithin_clientCalls block.2 hclient,
    storesWithin_clientCalls block.2 [] (Nat.zero_le _),
    asksWithin_serverCalls server,
    storesWithin_serverCalls [] (Nat.zero_le _)⟩

def oneByte (c : UInt8) : Chunk := ⟨[c], List.cons_ne_nil _ _⟩

/-- A response that is one byte too long for the block. -/
def longResponse : List Chunk :=
  [⟨List.replicate maxObjectSize 1, List.cons_ne_nil _ _⟩, oneByte 1]

theorem reads_within_one : (∀ chunk ∈ [oneByte 71], chunk.1.length ≤ maxObjectSize) ∧
    (AsksWithin (clientCalls [] cleared.clientReq.1 0 [oneByte 71]) ↔
      ∀ chunk ∈ [oneByte 71].head?,
        isCompleteRequest (cstring (filled cleared.clientReq.1 [chunk] ++ []))) ∧
    (StoresWithin (serverCalls 0 longResponse) ↔
      (received longResponse).length ≤ maxObjectSize) := by
  have hclient : ∀ chunk ∈ [oneByte 71], chunk.1.length ≤ maxObjectSize := by
    decide
  obtain ⟨hasks, -, -, hstores⟩ :=
    reads_within_iff cleared.clientReq [] hclient longResponse
  exact ⟨hclient, hasks, hstores⟩

/-- The second call for a request asks for one byte too many. The last byte of a response is stored
behind the block. -/
theorem second_read_beyond :
    ¬ AsksWithin (clientCalls [] cleared.clientReq.1 0 [oneByte 71]) ∧
    ¬ StoresWithin (serverCalls 0 longResponse) := by
  constructor
  · intro h
    have hcomplete := (asksWithin_clientCalls cleared.clientReq.2 (by decide)).1 h _ rfl
    revert hcomplete
    decide +kernel
  · intro h
    have hle := (storesWithin_serverCalls [] (Nat.zero_le _)).1 h
    have hlength : (received ([] ++ longResponse)).length = maxObjectSize + 1 := by
      simp [longResponse, received, oneByte]
    omega

end Cs324.ThreadPool
