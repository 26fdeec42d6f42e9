import Cs324.SocketClient.Sending

namespace Cs324.SocketClient
set_option autoImplicit true

/-- What a call of `read` on the socket comes back with. -/
inductive Receipt
  | bytes (chunk : List UInt8)
  | eof
  | failed

def Receipt.result : Receipt → Int
  | .bytes chunk => chunk.length
  | .eof => 0
  | .failed => -1

def Receipt.stored : Receipt → List UInt8
  | .bytes chunk => chunk
  | .eof | .failed => []

/-- The loop of `read`: `nread` and the bytes printed, unless `printf` runs past the end of
`outBuf` or the loop still waits for a call to return. The assignment takes the value of the test,
so `curRead` is 1 for every call that reads something. -/
def receiveLoop (outBuf : List UInt8) (nread : Int) : List Receipt → Option (Int × List UInt8)
  | [] => none
  | receipt :: receipts =>
    let outBuf := store outBuf receipt.stored
    let curRead : Int := if receipt.result > 0 then 1 else 0
    if curRead ≠ 0 then
      if 0 ∈ outBuf then
        (receiveLoop (List.replicate bufSize 0) (int64 (nread + curRead)) receipts).map
          fun (total, printed) => (total, cstring outBuf ++ printed)
      else none
    else some (nread, [])

/-- The server sends the stream in these chunks and closes the connection: the loop ends and has
printed the stream. -/
def PrintsStream (outBuf : List UInt8) (chunks : List (List UInt8)) : Prop :=
  ∃ nread, receiveLoop outBuf 0 (chunks.map .bytes ++ [.eof]) = some (nread, chunks.flatten)

theorem receiveLoop_bytes (outBuf : List UInt8) (nread : Int) (h : chunk ≠ [])
    (receipts : List Receipt) : receiveLoop outBuf nread (.bytes chunk :: receipts) =
      if 0 ∈ store outBuf chunk then
        (receiveLoop (List.replicate bufSize 0) (int64 (nread + 1)) receipts).map
          fun (total, printed) => (total, cstring (store outBuf chunk) ++ printed)
      else none := by
  have hpos : (Receipt.bytes chunk).result > 0 := Int.natCast_pos.2 (List.length_pos_iff.2 h)
  have hone : (1 : Int) ≠ 0 := by decide
  simp only [receiveLoop, if_pos hpos]
  rw [if_pos hone]
  rfl

/-- Once the array has been cleared, a chunk is printed up to its first NUL. -/
theorem store_zeros (h : chunk.length ≤ 4096) :
    0 ∈ store (List.replicate bufSize 0) chunk ∧
      cstring (store (List.replicate bufSize 0) chunk) = cstring chunk := by
  obtain ⟨k, hk⟩ : ∃ k, bufSize - chunk.length = k + 1 := by
    refine Nat.exists_eq_add_of_le' ?_
    rw [bufSize]
    omega
  have hstore : store (List.replicate bufSize 0) chunk = chunk ++ 0 :: List.replicate k 0 := by
    rw [store, List.drop_replicate, hk, List.replicate_succ]
  rw [hstore]
  exact ⟨List.mem_append_right _ List.mem_cons_self, cstring_terminate chunk _⟩

theorem receiveLoop_zeros {chunks : List (List UInt8)} (hne : ∀ chunk ∈ chunks, chunk ≠ [])
    (hlen : ∀ chunk ∈ chunks, chunk.length ≤ 4096) (nread : Int) :
    ∃ total, receiveLoop (List.replicate bufSize 0) nread (chunks.map .bytes ++ [.eof]) =
      some (total, (chunks.map cstring).flatten) := by
  induction chunks generalizing nread with
  | nil => exact ⟨nread, rfl⟩
  | cons chunk chunks ih =>
    obtain ⟨hzero, hprint⟩ := store_zeros (hlen chunk List.mem_cons_self)
    obtain ⟨total, hrest⟩ := ih (fun c hc => hne c (List.mem_cons_of_mem _ hc))
      (fun c hc => hlen c (List.mem_cons_of_mem _ hc)) (int64 (nread + 1))
    refine ⟨total, ?_⟩
    rw [List.map_cons, List.cons_append, receiveLoop_bytes _ _ (hne chunk List.mem_cons_self),
      if_pos hzero, hrest, hprint]
    rfl

theorem not_mem_printed (chunks : List (List UInt8)) : 0 ∉ (chunks.map cstring).flatten := by
  intro h
  obtain ⟨printed, hprinted, hzero⟩ := List.mem_flatten.1 h
  obtain ⟨chunk, -, rfl⟩ := List.mem_map.1 hprinted
  exact cstring_not_mem chunk hzero

theorem map_cstring {chunks : List (List UInt8)} (h : 0 ∉ chunks.flatten) :
    chunks.map cstring = chunks := by
  have hself : ∀ chunk ∈ chunks, cstring chunk = id chunk := fun chunk hchunk =>
    cstring_eq_self fun hzero => h (List.mem_flatten.2 ⟨chunk, hchunk, hzero⟩)
  rw [List.map_congr_left hself, List.map_id]

/-- The first chunk is printed as it is when it holds no NUL and a NUL follows it. -/
theorem cstring_store_iff (hz : 0 ∉ chunk) (h : 0 ∈ store outBuf chunk) :
    cstring (store outBuf chunk) = chunk ↔ outBuf[chunk.length]? = some 0 := by
  have hdrop : 0 ∈ outBuf.drop chunk.length := (List.mem_append.1 h).resolve_left hz
  rw [store, cstring_append hz, List.append_right_eq_self, cstring_eq_nil hdrop, List.head?_drop]

/-- The bytes printed are those of the stream when none of them is NUL and nothing comes in behind
the first chunk. -/
theorem printed_eq_iff (chunks : List (List UInt8)) (h : 0 ∈ store outBuf chunk) :
    cstring (store outBuf chunk) ++ (chunks.map cstring).flatten = chunk ++ chunks.flatten ↔
      0 ∉ chunk ++ chunks.flatten ∧ outBuf[chunk.length]? = some 0 := by
  constructor
  · intro he
    have hnone : 0 ∉ chunk ++ chunks.flatten := by
      rw [← he]
      intro hmem
      exact (List.mem_append.1 hmem).elim (cstring_not_mem _) (not_mem_printed _)
    obtain ⟨hfirst, hrest⟩ := not_or.1 (mt List.mem_append.2 hnone)
    rw [map_cstring hrest] at he
    exact ⟨hnone, (cstring_store_iff hfirst h).1 (List.append_cancel_right he)⟩
  · rintro ⟨hnone, hnul⟩
    obtain ⟨hfirst, hrest⟩ := not_or.1 (mt List.mem_append.2 hnone)
    rw [map_cstring hrest, (cstring_store_iff hfirst h).2 hnul]

theorem printsStream_cons (hne : ∀ c ∈ chunk :: chunks, c ≠ [])
    (hlen : ∀ c ∈ chunk :: chunks, c.length ≤ 4096) :
    PrintsStream outBuf (chunk :: chunks) ↔ 0 ∈ store outBuf chunk ∧
      cstring (store outBuf chunk) ++ (chunks.map cstring).flatten = chunk ++ chunks.flatten := by
  rw [PrintsStream, List.map_cons, List.cons_append,
    receiveLoop_bytes _ _ (hne chunk List.mem_cons_self)]
  obtain ⟨total, hrest⟩ := receiveLoop_zeros (fun c hc => hne c (List.mem_cons_of_mem _ hc))
    (fun c hc => hlen c (List.mem_cons_of_mem _ hc)) (int64 (0 + 1))
  by_cases hbuf : 0 ∈ store outBuf chunk
  · rw [if_pos hbuf, hrest]
    simp [hbuf]
  · rw [if_neg hbuf]
    simp [hbuf]

/-- What the server sends is printed exactly when it holds no NUL and the uninitialised array has
one behind the first chunk. -/
theorem prints_received_iff (outBuf : List UInt8) (chunks : List (List UInt8))
    (hne : ∀ chunk ∈ chunks, chunk ≠ []) (hlen : ∀ chunk ∈ chunks, chunk.length ≤ 4096) :
    PrintsStream outBuf chunks ↔ 0 ∉ chunks.flatten ∧
      ∀ chunk, chunks.head? = some chunk → outBuf[chunk.length]? = some 0 := by
  cases chunks with
  | nil => exact iff_of_true ⟨0, rfl⟩ ⟨by simp, nofun⟩
  | cons chunk chunks =>
    have hfirst : (∀ c, (chunk :: chunks).head? = some c → outBuf[c.length]? = some 0) ↔
        outBuf[chunk.length]? = some 0 := by simp
    rw [hfirst, printsStream_cons hne hlen, List.flatten_cons]
    constructor
    · rintro ⟨hbuf, he⟩
      exact (printed_eq_iff chunks hbuf).1 he
    · rintro ⟨hnone, hnul⟩
      have hmem : 0 ∈ outBuf.drop chunk.length := by
        rw [← List.head?_drop] at hnul
        exact List.mem_of_head? hnul
      have hbuf : 0 ∈ store outBuf chunk := List.mem_append_right _ hmem
      exact ⟨hbuf, (printed_eq_iff chunks hbuf).2 ⟨hnone, hnul⟩⟩

def httpResponse : List (List UInt8) := [chars "HTTP/1.0 200 OK\n", chars "\nverse 1\n"]

theorem response_printed : PrintsStream (List.replicate bufSize 0) httpResponse :=
  (prints_received_iff (List.replicate bufSize 0) httpResponse (by decide +kernel)
    (by decide +kernel)).2 ⟨by decide +kernel, fun chunk h => by cases h; decide +kernel⟩

/-- The first bytes of a jpeg file. -/
def jpegHeader : List UInt8 := [255, 216, 255, 224, 0, 16, 74, 70]

/-- Nothing behind the NUL is printed. -/
theorem jpeg_cut_at_nul :
    receiveLoop (List.replicate bufSize 0) 0 [.bytes jpegHeader, .eof] =
      some (1, [255, 216, 255, 224]) ∧
    ¬PrintsStream (List.replicate bufSize 0) [jpegHeader] := by
  have hloop : receiveLoop (List.replicate bufSize 0) 0 [.bytes jpegHeader, .eof] =
      some (1, [255, 216, 255, 224]) := by decide +kernel
  refine ⟨hloop, fun ⟨nread, h⟩ => ?_⟩
  cases hloop.symm.trans h

end Cs324.SocketClient
