import Cs324.Base.CLib
import Mathlib.Algebra.GroupWithZero.Nat

namespace Cs324.SocketClient
set_option autoImplicit true

def bufSize : Nat := 20000

/-- What `fread` or `read` leaves in an array: the bytes it returns at the front. -/
def store (buf chunk : List UInt8) : List UInt8 := chunk ++ buf.drop chunk.length

/-- The loop of `fread`, over what it returns until it returns nothing: the array, `nread` and the
lines printed. -/
def readInput (buf : List UInt8) (nread : Int) :
    List (List UInt8) → List UInt8 × Int × List UInt8
  | [] => (buf, nread, [])
  | chunk :: chunks =>
    let nread := int64 (nread + chunk.length)
    let (buf, total, printed) := readInput (store buf chunk) nread chunks
    (buf, total, decimal nread ++ chars " bytes read\n" ++ printed)

/-- The loop of `write` from its call number `call` on: the bytes accepted and the lines printed,
unless it goes on for longer than this. The comparison takes `nread` for a `size_t`. -/
def sendLoop (buf : List UInt8) (nread : Int) (writes : Nat → Nat) :
    Nat → Nat → Nat → Option (List UInt8 × List UInt8)
  | 0, _, _ => none
  | fuel + 1, call, len =>
    if len < sizeT nread then
      let len := sizeT (len + writes call)
      (sendLoop buf nread writes fuel (call + 1) len).map fun (sent, printed) =>
        (buf.take (writes call) ++ sent,
          decimal (int64 len) ++ chars " total bytes sent\n" ++ printed)
    else some ([], [])

/-- Both loops: the loop of `write` ends with these bytes accepted. -/
def Sends (buf : List UInt8) (nread : Int) (chunks : List (List UInt8)) (writes : Nat → Nat)
    (sent : List UInt8) : Prop :=
  ∃ fuel printed, sendLoop (readInput buf nread chunks).1 (readInput buf nread chunks).2.1 writes
    fuel 0 0 = some (sent, printed)

/-- Whatever the bytes, an input that `fread` splits like this is sent. -/
def SendsInput (nread : Int) (sizes : List Nat) (writes : Nat → Nat) : Prop :=
  ∀ buf chunks, buf.length = bufSize → chunks.map List.length = sizes →
    Sends buf nread chunks writes chunks.flatten

/-- The count that each `write` is asked for. -/
def asked (nread : Int) (sizes : List Nat) : Nat := sizeT (nread + sizes.sum)

/-- A call of `write` accepts something of what it is asked for and reads inside the array. -/
def Accepts (count : Nat) (writes : Nat → Nat) : Prop :=
  0 < count → ∀ call, 1 ≤ writes call ∧ writes call ≤ count ∧ writes call ≤ bufSize

theorem store_length (h : chunk.length ≤ buf.length) : (store buf chunk).length = buf.length := by
  simp only [store, List.length_append, List.length_drop]
  omega

theorem readInput_nread (buf : List UInt8) (nread : Int) (chunks : List (List UInt8)) :
    sizeT (readInput buf nread chunks).2.1 = asked nread (chunks.map List.length) := by
  induction chunks generalizing buf nread with
  | nil => simp [readInput, asked]
  | cons chunk chunks ih =>
    change sizeT (readInput (store buf chunk) (int64 (nread + chunk.length)) chunks).2.1 = _
    rw [ih]
    simp only [asked, sizeT, int64, List.map_cons, List.sum_cons]
    omega

/-- Each `fread` overwrites the front of the array, so the last one is what is left there. -/
theorem readInput_last (buf : List UInt8) (nread : Int) (chunks : List (List UInt8))
    (last : List UInt8) : ∃ old, (readInput buf nread (chunks ++ [last])).1 = store old last := by
  induction chunks generalizing buf nread with
  | nil => exact ⟨buf, rfl⟩
  | cons chunk chunks ih => exact ih (store buf chunk) (int64 (nread + chunk.length))

theorem sendLoop_cases (h : sendLoop buf nread writes fuel call len = some (sent, printed)) :
    (sizeT nread ≤ len ∧ sent = []) ∨
    ∃ fuel' rest printed', len < sizeT nread ∧ sent = buf.take (writes call) ++ rest ∧
      sendLoop buf nread writes fuel' (call + 1) (sizeT (len + writes call)) =
        some (rest, printed') := by
  cases fuel with
  | zero => cases h
  | succ fuel =>
    rw [sendLoop] at h
    split at h
    next hlt =>
      obtain ⟨⟨rest, printed'⟩, hrest, he⟩ := Option.map_eq_some_iff.1 h
      cases he
      exact .inr ⟨fuel, rest, printed', hlt, rfl, hrest⟩
    next hge =>
      cases h
      exact .inl ⟨Nat.not_lt.1 hge, rfl⟩

/-- An input with a zero in the first place and nowhere else. -/
def marked : List Nat → List (List UInt8)
  | [] => []
  | n :: sizes => (0 :: List.replicate (n - 1) 1) :: sizes.map fun m => List.replicate m 1

theorem marked_sizes (h : ∀ n ∈ sizes, 1 ≤ n) : (marked sizes).map List.length = sizes := by
  cases sizes with
  | nil => rfl
  | cons n sizes =>
    have hn := h n List.mem_cons_self
    simp only [marked, List.map_cons, List.length_cons, List.length_replicate, List.map_map]
    congr 1
    · omega
    · exact List.map_id'' (fun m => by simp) sizes

section sent
variable {buf : List UInt8} {nread : Int} {writes : Nat → Nat}

/-- What is accepted starts with the first byte of the array. -/
theorem sendLoop_head (hb : buf.head? = some b) (hw : len < sizeT nread → 1 ≤ writes call)
    (h : sendLoop buf nread writes fuel call len = some (sent, printed)) :
    (sizeT nread ≤ len ∧ sent = []) ∨ sent.head? = some b := by
  rcases sendLoop_cases h with hend | ⟨_, rest, _, hlt, rfl, _⟩
  · exact .inl hend
  · right
    obtain ⟨bytes, rfl⟩ := List.head?_eq_some_iff.1 hb
    obtain ⟨w, hw⟩ := Nat.exists_eq_add_of_le' (hw hlt)
    rw [hw]
    rfl

/-- The first byte of the array is accepted once if there is only one call. -/
theorem one_write (hb : buf.length = bufSize) (hhead : buf.head? = some 0)
    (hw : Accepts (sizeT nread) writes)
    (h : sendLoop buf nread writes fuel 0 0 = some (0 :: tail, printed)) (htail : 0 ∉ tail) :
    writes 0 = tail.length + 1 ∧ sizeT nread = tail.length + 1 := by
  obtain ⟨bytes, rfl⟩ := List.head?_eq_some_iff.1 hhead
  rcases sendLoop_cases h with ⟨_, he⟩ | ⟨fuel', rest, printed', hlt, hsent, hrest⟩
  · cases he
  · obtain ⟨hpos, hcount, hfits⟩ := hw hlt 0
    obtain ⟨k, hk⟩ := Nat.exists_eq_add_of_le' hpos
    rw [hk] at hsent hcount hfits hrest ⊢
    have htake : tail = bytes.take k ++ rest := (List.cons.inj hsent).2
    rcases sendLoop_head hhead (fun _ => (hw hlt 1).1) hrest with ⟨hend, rfl⟩ | hzero
    · have hlen : tail.length = k := by
        rw [htake, List.append_nil, List.length_take]
        simp only [List.length_cons, bufSize] at hb hfits
        omega
      have hlen' : sizeT ((0 : Nat) + (k + 1 : Nat)) = k + 1 := by
        simp only [bufSize] at hfits
        rw [sizeT_eq] <;> omega
      omega
    · obtain ⟨more, rfl⟩ := List.head?_eq_some_iff.1 hzero
      exact absurd (htake ▸ List.mem_append_right _ List.mem_cons_self) htail

end sent

theorem sends_at_once (hsizes : ∀ m ∈ [n], 1 ≤ m) (htotal : [n].sum ≤ 4096)
    (hn : writes 0 = n) : SendsInput 0 [n] writes := by
  intro buf chunks hb hc
  obtain ⟨chunk, rest, rfl, rfl, hrest⟩ := List.map_eq_cons_iff.1 hc
  cases List.map_eq_nil_iff.1 hrest
  have hpos : 0 < chunk.length := hsizes _ List.mem_cons_self
  simp only [List.sum_cons, List.sum_nil, Nat.add_zero] at htotal
  have hread : readInput buf 0 [chunk] = (store buf chunk, (chunk.length : Int),
      decimal chunk.length ++ chars " bytes read\n" ++ []) := by
    have hnread : int64 (0 + chunk.length) = chunk.length := by
      simp only [int64]
      omega
    simp only [readInput, hnread]
  have hcount : sizeT (chunk.length : Nat) = chunk.length := by
    rw [sizeT_eq] <;> omega
  have hlen : sizeT ((0 : Nat) + (chunk.length : Nat)) = chunk.length := by
    rw [sizeT_eq] <;> omega
  have hsent : (store buf chunk).take chunk.length ++ [] = [chunk].flatten := by
    simp [store]
  refine ⟨2, decimal (int64 chunk.length) ++ chars " total bytes sent\n" ++ [], ?_⟩
  rw [hread, ← hsent]
  simp only [sendLoop, hn, hcount, hlen, hpos, Nat.lt_irrefl, ↓reduceIte, Option.map_some]

theorem eq_zero_of_asked (sizes : List Nat) (hmin : -9223372036854775808 ≤ nread)
    (hmax : nread ≤ 9223372036854775807) (h : asked nread sizes = sizes.sum) : nread = 0 := by
  simp only [asked, sizeT] at h
  omega

/-- When `fread` returns everything at once, the array holds the input, and one call sends it. -/
theorem sends_single (hn : 1 ≤ n) (hfit : n ≤ 4096) (hw : Accepts (asked nread [n]) writes)
    (h : Sends (List.replicate bufSize 0) nread (marked [n]) writes (marked [n]).flatten) :
    writes 0 = n ∧ asked nread [n] = n := by
  obtain ⟨fuel, printed, hloop⟩ := h
  have hcount := readInput_nread (List.replicate bufSize 0) nread (marked [n])
  have hsizes : ∀ m ∈ [n], 1 ≤ m := by simpa using hn
  rw [marked_sizes hsizes] at hcount
  rw [← hcount] at hw ⊢
  have hstore : (store (List.replicate bufSize 0) (0 :: List.replicate (n - 1) 1)).length =
      bufSize := by
    rw [store_length, List.length_replicate]
    rw [List.length_replicate, List.length_cons, List.length_replicate, bufSize]
    omega
  have hflat : (marked [n]).flatten = 0 :: List.replicate (n - 1) 1 := by simp [marked]
  rw [hflat] at hloop
  obtain ⟨hone, hall⟩ := one_write hstore rfl hw hloop (by simp)
  rw [List.length_replicate] at hone hall
  constructor <;> omega

/-- When `fread` returns it in parts, the last part is at the front of the array. -/
theorem not_sends_parts (hm : 1 ≤ m)
    (hw : Accepts (asked nread ((marked (n :: (front ++ [m]))).map List.length)) writes) :
    ¬Sends (List.replicate bufSize 0) nread (marked (n :: (front ++ [m]))) writes
      (marked (n :: (front ++ [m]))).flatten := by
  rintro ⟨fuel, printed, hloop⟩
  rw [← readInput_nread (List.replicate bufSize 0)] at hw
  obtain ⟨k, rfl⟩ := Nat.exists_eq_add_of_le' hm
  have hsplit : marked (n :: (front ++ [k + 1])) =
      marked (n :: front) ++ [List.replicate (k + 1) 1] := by
    simp [marked]
  have hhead : (readInput (List.replicate bufSize 0) nread
      (marked (n :: (front ++ [k + 1])))).1.head? = some 1 := by
    obtain ⟨old, hbuf⟩ := readInput_last (List.replicate bufSize 0) nread (marked (n :: front))
      (List.replicate (k + 1) 1)
    rw [hsplit, hbuf]
    rfl
  rcases sendLoop_head hhead (fun hlt => (hw hlt 0).1) hloop with ⟨-, he⟩ | hone
  · cases he
  · cases hone

theorem sends_only (hmin : -9223372036854775808 ≤ nread) (hmax : nread ≤ 9223372036854775807)
    (hsizes : ∀ n ∈ sizes, 1 ≤ n) (htotal : sizes.sum ≤ 4096)
    (hw : Accepts (asked nread sizes) writes) (h : SendsInput nread sizes writes) :
    nread = 0 ∧ (sizes = [] ∨ ∃ n, sizes = [n] ∧ writes 0 = n) := by
  have hmarked := marked_sizes hsizes
  have hsends := h (List.replicate bufSize 0) (marked sizes) List.length_replicate hmarked
  cases sizes with
  | nil =>
    obtain ⟨fuel, printed, hloop⟩ := hsends
    have hcount := readInput_nread (List.replicate bufSize 0) nread []
    rw [List.map_nil] at hcount
    rw [← hcount] at hw
    rcases sendLoop_head (b := 0) rfl (fun hlt => (hw hlt 0).1) hloop with ⟨hend, -⟩ | hhead
    · exact ⟨eq_zero_of_asked [] hmin hmax (hcount ▸ Nat.le_zero.1 hend), .inl rfl⟩
    · cases hhead
  | cons n sizes =>
    have hn := hsizes n List.mem_cons_self
    rcases List.eq_nil_or_concat sizes with rfl | ⟨front, m, hconcat⟩
    · rw [List.sum_cons, List.sum_nil, Nat.add_zero] at htotal
      obtain ⟨hone, hall⟩ := sends_single hn htotal hw hsends
      exact ⟨eq_zero_of_asked [n] hmin hmax (by simpa using hall), .inr ⟨n, rfl, hone⟩⟩
    · rw [List.concat_eq_append] at hconcat
      subst hconcat
      rw [← hmarked] at hw
      exact absurd hsends (not_sends_parts (hsizes m (by simp)) hw)

/-- Standard input is sent exactly when `nread` is 0 at the start and one call of `fread` and one
of `write` take all of it. -/
theorem sends_input_iff (nread : Int) (sizes : List Nat) (writes : Nat → Nat)
    (hmin : -9223372036854775808 ≤ nread) (hmax : nread ≤ 9223372036854775807)
    (hsizes : ∀ n ∈ sizes, 1 ≤ n) (htotal : sizes.sum ≤ 4096)
    (hw : Accepts (asked nread sizes) writes) :
    SendsInput nread sizes writes ↔
      nread = 0 ∧ (sizes = [] ∨ ∃ n, sizes = [n] ∧ writes 0 = n) := by
  constructor
  · intro h
    exact sends_only hmin hmax hsizes htotal hw h
  · rintro ⟨rfl, rfl | ⟨n, rfl, hn⟩⟩
    · intro buf chunks hb hc
      rw [List.map_eq_nil_iff.1 hc]
      exact ⟨1, [], rfl⟩
    · exact sends_at_once hsizes htotal hn

theorem five_bytes_sent : Accepts (asked 0 [5]) (fun _ => 5) ∧ SendsInput 0 [5] fun _ => 5 := by
  have hw : Accepts (asked 0 [5]) fun _ => 5 := by
    intro _ _
    change 1 ≤ 5 ∧ 5 ≤ asked 0 [5] ∧ 5 ≤ bufSize
    decide
  exact ⟨hw, (sends_input_iff 0 [5] (fun _ => 5) (by decide) (by decide) (by decide) (by decide)
    hw).2 ⟨rfl, .inr ⟨5, rfl, rfl⟩⟩⟩

/-- The first call accepts two bytes of five, and the second one starts over. -/
def twoThenThree (call : Nat) : Nat := if call = 0 then 2 else 3

theorem partial_write_resends : Accepts (asked 0 [5]) twoThenThree ∧
    Sends (List.replicate bufSize 0) 0 [chars "hello"] twoThenThree (chars "hehel") ∧
    ¬SendsInput 0 [5] twoThenThree := by
  have hw : Accepts (asked 0 [5]) twoThenThree := by
    intro _ call
    unfold twoThenThree
    split <;> decide
  refine ⟨hw, ⟨3, chars "2 total bytes sent\n5 total bytes sent\n", by decide +kernel⟩, fun h => ?_⟩
  obtain ⟨-, hnil | ⟨n, hn, htwo⟩⟩ :=
    sends_only (by decide) (by decide) (by decide) (by decide) hw h
  · cases hnil
  · cases hn
    cases htwo

end Cs324.SocketClient
