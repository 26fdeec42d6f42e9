import Cs324.Tiny.Adder

namespace Cs324.Tiny
set_option autoImplicit true
open Csapp Shell

structure SlowArgs where
  size : Int
  sleepTime : Int
  chunkSize : Int
  deriving DecidableEq

/-- A pass of the loop over the pairs of the query string. -/
def SlowArgs.set (args : SlowArgs) (pair : List UInt8) : SlowArgs :=
  match cutAt 61 pair with
  | none => args
  | some (name, value) =>
    if name = chars "size" then { args with size := atoi value }
    else if name = chars "sleep" then { args with sleepTime := atoi value }
    else if name = chars "chunksize" then { args with chunkSize := atoi value }
    else args

def slowArgs (queryString : List UInt8) : SlowArgs :=
  (queryString.splitOn 38).foldl SlowArgs.set ⟨0, 0, 0⟩

/-- The size of the chunks in the end. -/
def SlowArgs.chunk (args : SlowArgs) : Int :=
  if args.chunkSize ≤ 1 then args.size.tdiv 2 else args.chunkSize

def pattern (i : Int) : UInt8 := if i % 10 = 0 then 10 else UInt8.ofNat (48 + (i % 10).toNat)

/-- The loop that writes the chunks from `i` on, unless it takes more passes than this. -/
def slowLoop (size chunkSize : Int) : Nat → Int → Option (List UInt8)
  | 0, _ => none
  | passes + 1, i =>
    if i < size then
      let chunk := int32 (i + chunkSize)
      let chunk := if size < chunk then size else chunk
      (slowLoop size chunkSize passes (max i chunk)).map fun written =>
        ((List.range (chunk - i).toNat).map fun j : Nat => pattern (i + j)) ++ written
    else some []

/-- What `slow` writes before it ends. When `size + 1` overflows, it gets no memory and stores
through the null pointer. -/
def slow (passes : Nat) (queryString : List UInt8) : Option (List UInt8) :=
  let args := slowArgs queryString
  let header := chars "Connection: close\r\n" ++
    (chars "Content-length: " ++ decimal args.size ++ crlf) ++
    chars "Content-type: text/plain\r\n\r\n"
  if 0 < args.size ∧ int32 (args.size + 1) < 0 then some header
  else (slowLoop args.size args.chunk passes 0).map (header ++ ·)

example : slow 3 (chars "size=12&chunksize=5") = none := by decide
example : slow 4 (chars "size=12&chunksize=5") = some (chars
  "Connection: close\r\nContent-length: 12\r\nContent-type: text/plain\r\n\r\n\n123456789\n1") := by
  decide

section loop
variable {n c : Nat}

/-- A pass that does not overflow writes up to the end of the chunk. -/
theorem slowLoop_pass (hi : i < n) (hfit : i + c < 2147483648) (passes : Nat) :
    slowLoop n c (passes + 1) (i : Nat) =
      (slowLoop n c passes (min n (i + c) : Nat)).map
        (((List.range' i (min n (i + c) - i)).map fun j => pattern (j : Nat)) ++ ·) := by
  have hsum : int32 ((i : Int) + c) = (i + c : Nat) := by
    rw [int32_eq (by omega) (by omega), Int.natCast_add]
  have hchunk : (if (n : Int) < int32 ((i : Int) + c) then (n : Int) else int32 ((i : Int) + c)) =
      (min n (i + c) : Nat) := by
    rw [hsum]
    split <;> omega
  have hmax : max (i : Int) (min n (i + c) : Nat) = (min n (i + c) : Nat) := by omega
  have hcount : ((min n (i + c) : Nat) - (i : Int)).toNat = min n (i + c) - i := by omega
  have hbytes : (List.range (min n (i + c) - i)).map (fun j : Nat => pattern ((i : Int) + j)) =
      (List.range' i (min n (i + c) - i)).map fun j => pattern (j : Nat) := by
    rw [List.range'_eq_map_range, List.map_map]
    apply List.map_congr_left
    intro j _
    simp
  rw [slowLoop, if_pos (by omega)]
  dsimp only
  rw [hchunk, hmax, hcount, hbytes]

/-- A pass that makes no progress, or whose sum overflows, is repeated for ever. -/
theorem slowLoop_stuck (hi : i < n) (hc : c < 2147483648) (hn : n < 2147483648)
    (h : c = 0 ∨ 2147483648 ≤ i + c) (passes : Nat) : slowLoop n c passes (i : Nat) = none := by
  have hchunk : max (i : Int) (if (n : Int) < int32 ((i : Int) + c) then (n : Int)
      else int32 ((i : Int) + c)) = (i : Nat) := by
    have hle : int32 ((i : Int) + c) ≤ i := by
      rcases h with rfl | hover
      · rw [int32_eq (by omega) (by omega)]
        omega
      · simp only [int32]
        omega
    rw [if_neg (by omega)]
    omega
  induction passes with
  | zero => rfl
  | succ passes ih =>
    rw [slowLoop, if_pos (by omega)]
    dsimp only
    rw [hchunk, ih, Option.map_none]

theorem slowLoop_ended (hi : n ≤ i) (passes : Nat) :
    slowLoop n c (passes + 1) (i : Nat) = some [] := by
  rw [slowLoop, if_neg (by omega)]

/-- When the loop ends, it has written what is left of the pattern, in whatever chunks. -/
theorem slowLoop_pattern (passes : Nat) (hc : c < 2147483648) (hn : n < 2147483648) (hi : i ≤ n)
    (h : slowLoop n c passes (i : Nat) = some written) :
    written = (List.range' i (n - i)).map fun j => pattern (j : Nat) := by
  induction passes generalizing i written with
  | zero => cases h
  | succ passes ih =>
    rcases Nat.eq_or_lt_of_le hi with rfl | hlt
    · rw [slowLoop_ended le_rfl] at h
      cases h
      rw [Nat.sub_self]
      rfl
    · by_cases hstuck : c = 0 ∨ 2147483648 ≤ i + c
      · rw [slowLoop_stuck hlt hc hn hstuck] at h
        cases h
      · rw [slowLoop_pass hlt (by omega), Option.map_eq_some_iff] at h
        obtain ⟨rest, hrest, rfl⟩ := h
        have hsplit : n - i = (min n (i + c) - i) + (n - min n (i + c)) := by omega
        have hfrom : i + (min n (i + c) - i) = min n (i + c) := by omega
        rw [ih (Nat.min_le_left _ _) hrest, hsplit, ← List.range'_append_1, List.map_append, hfrom]

/-- The end of the last chunk, before it is cut to the size. -/
def lastEnd (n c : Nat) : Nat := ((n - 1) / c + 1) * c

theorem lastEnd_step (hc : 0 < c) (hk : k * c < n) :
    (k + 1) * c ≤ lastEnd n c ∧ ((k + 1) * c < lastEnd n c → (k + 1) * c < n) := by
  have hle : k ≤ (n - 1) / c := (Nat.le_div_iff_mul_le hc).2 (by omega)
  refine ⟨Nat.mul_le_mul_right c (by omega), fun hlt => ?_⟩
  have hk' : k + 1 ≤ (n - 1) / c := Nat.lt_succ_iff.1 (Nat.lt_of_mul_lt_mul_right hlt)
  have := (Nat.le_div_iff_mul_le hc).1 hk'
  omega

theorem slowLoop_ends (hc : 0 < c) (hfit : lastEnd n c < 2147483648) (k : Nat) :
    ∃ passes written, slowLoop n c passes (min n (k * c) : Nat) = some written := by
  induction hm : n - k * c using Nat.strong_induction_on generalizing k with
  | _ m ih =>
    by_cases hk : k * c < n
    · obtain ⟨hle, -⟩ := lastEnd_step hc hk
      have hnext : k * c + c = (k + 1) * c := (Nat.succ_mul k c).symm
      obtain ⟨passes, written, h⟩ := ih (n - (k + 1) * c) (by omega) (k + 1) rfl
      have hpass := slowLoop_pass (c := c) hk (by omega) passes
      rw [hnext, h, Option.map_some] at hpass
      rw [Nat.min_eq_right (Nat.le_of_lt hk)]
      exact ⟨_, _, hpass⟩
    · rw [Nat.min_eq_left (Nat.le_of_not_lt hk)]
      exact ⟨1, [], slowLoop_ended le_rfl 0⟩

theorem slowLoop_overflows (hc : 0 < c) (hcmax : c < 2147483648) (hn : n < 2147483648)
    (hfit : 2147483648 ≤ lastEnd n c) (passes k : Nat) (hk : k * c < n) :
    slowLoop n c passes (k * c : Nat) = none := by
  induction passes generalizing k with
  | zero => rfl
  | succ passes ih =>
    obtain ⟨-, hnext⟩ := lastEnd_step hc hk
    have hsucc : k * c + c = (k + 1) * c := (Nat.succ_mul k c).symm
    by_cases hover : 2147483648 ≤ k * c + c
    · exact slowLoop_stuck hk hcmax hn (.inr hover) (passes + 1)
    · have hlt := hnext (by omega)
      rw [slowLoop_pass hk (by omega), hsucc, Nat.min_eq_right (Nat.le_of_lt hlt), ih (k + 1) hlt,
        Option.map_none]

theorem slowLoop_ends_iff (hc : c < 2147483648) (hn : n < 2147483648) (hpos : 0 < n) :
    (∃ passes written, slowLoop n c passes 0 = some written) ↔
      c ≠ 0 ∧ lastEnd n c < 2147483648 := by
  constructor
  · rintro ⟨passes, written, h⟩
    by_contra hno
    have hnone : slowLoop n c passes 0 = none := by
      rcases Nat.eq_zero_or_pos c with rfl | hcpos
      · exact slowLoop_stuck hpos hc hn (.inl rfl) passes
      · have := slowLoop_overflows hcpos hc hn
          (Nat.le_of_not_lt fun hlt => hno ⟨by omega, hlt⟩) passes 0 (by omega)
        rwa [Nat.zero_mul] at this
    rw [hnone] at h
    cases h
  · rintro ⟨hne, hfit⟩
    have := slowLoop_ends (Nat.pos_of_ne_zero hne) hfit 0
    rwa [Nat.zero_mul, Nat.min_zero] at this

end loop

/-- The numbers are `int`s. -/
structure SlowArgs.InRange (args : SlowArgs) : Prop where
  size : -2147483648 ≤ args.size ∧ args.size < 2147483648
  chunkSize : -2147483648 ≤ args.chunkSize ∧ args.chunkSize < 2147483648

theorem slowArgs_inRange (queryString : List UInt8) : (slowArgs queryString).InRange := by
  have hset {args : SlowArgs} (h : args.InRange) (pair : List UInt8) : (args.set pair).InRange := by
    rw [SlowArgs.set]
    split
    · exact h
    · rename_i name value _
      split
      · exact ⟨atoi_range value, h.chunkSize⟩
      · split
        · exact ⟨h.size, h.chunkSize⟩
        · split
          · exact ⟨h.size, atoi_range value⟩
          · exact h
  have hfold (pairs : List (List UInt8)) {args : SlowArgs} (h : args.InRange) :
      (pairs.foldl SlowArgs.set args).InRange := by
    induction pairs generalizing args with
    | nil => exact h
    | cons pair pairs ih => exact ih (hset h pair)
  exact hfold _ ⟨by decide, by decide⟩

theorem SlowArgs.InRange.chunk (h : SlowArgs.InRange args) (hpos : 0 < args.size) :
    ∃ n c : Nat, args.size = n ∧ args.chunk = c ∧ n < 2147483648 ∧ c < 2147483648 := by
  obtain ⟨⟨-, hsize⟩, -, hchunk⟩ := h
  obtain ⟨n, hn⟩ := Int.eq_ofNat_of_zero_le (Int.le_of_lt hpos)
  have hhalf : (n : Int).tdiv 2 = (n / 2 : Nat) := rfl
  have hbounds : 0 ≤ args.chunk ∧ args.chunk < 2147483648 := by
    rw [SlowArgs.chunk, hn, hhalf]
    split <;> omega
  exact ⟨n, args.chunk.toNat, hn, by omega, by omega, by omega⟩

/-- The header of `slow`. -/
def slowHeader (size : Int) : List UInt8 :=
  chars "Connection: close\r\n" ++ (chars "Content-length: " ++ decimal size ++ crlf) ++
    chars "Content-type: text/plain\r\n\r\n"

theorem slow_eq {queryString : List UInt8} (h : (slowArgs queryString).size ≠ 2147483647)
    (passes : Nat) : slow passes queryString =
      (slowLoop (slowArgs queryString).size (slowArgs queryString).chunk passes 0).map
        (slowHeader (slowArgs queryString).size ++ ·) := by
  obtain ⟨hmin, hmax⟩ := (slowArgs_inRange queryString).size
  refine if_neg ?_
  rintro ⟨hpos, hneg⟩
  rw [int32_eq (by omega) (by omega)] at hneg
  omega

/-- `slow` ends unless its chunks are empty or the end of the last one overflows; the program then
goes on for ever. A `size` of 1 alone is enough for that. -/
theorem slow_ends_iff (queryString : List UInt8) :
    (∃ passes written, slow passes queryString = some written) ↔
      (slowArgs queryString).size ≤ 0 ∨ (slowArgs queryString).size = 2147483647 ∨
        ((slowArgs queryString).chunk ≠ 0 ∧
          lastEnd (slowArgs queryString).size.toNat (slowArgs queryString).chunk.toNat <
            2147483648) := by
  by_cases hmax : (slowArgs queryString).size = 2147483647
  · refine iff_of_true ⟨0, slowHeader 2147483647, ?_⟩ (.inr (.inl hmax))
    rw [slow, hmax, if_pos (by decide)]
    rfl
  · simp only [slow_eq hmax, Option.map_eq_some_iff]
    by_cases hpos : 0 < (slowArgs queryString).size
    · obtain ⟨n, c, hn, hc, hnmax, hcmax⟩ := (slowArgs_inRange queryString).chunk hpos
      have hloop := slowLoop_ends_iff hcmax hnmax (by omega)
      rw [hn] at hmax ⊢
      rw [hc, Int.toNat_natCast, Int.toNat_natCast]
      constructor
      · rintro ⟨passes, _, written, h, -⟩
        obtain ⟨hne, hfit⟩ := hloop.1 ⟨passes, written, h⟩
        exact .inr (.inr ⟨by omega, hfit⟩)
      · rintro (hle | hmax' | ⟨hne, hfit⟩)
        · omega
        · exact absurd hmax' hmax
        · obtain ⟨passes, written, h⟩ := hloop.2 ⟨by omega, hfit⟩
          exact ⟨passes, _, written, h, rfl⟩
    · refine iff_of_true ⟨1, _, [], ?_, rfl⟩ (.inl (by omega))
      rw [slowLoop, if_neg (by omega)]

example : slow 20 (chars "size=1") = none := by decide

/-- Whatever the chunks, what `slow` has written when it ends is a whole response with the pattern
of the size as its body. -/
theorem slow_measured (queryString : List UInt8) (h : slow passes queryString = some written)
    (hpos : 0 ≤ (slowArgs queryString).size) (hmax : (slowArgs queryString).size ≠ 2147483647) :
    Measured (dynamicHead ++ written) ∧ bodyOf (dynamicHead ++ written) =
      (List.range (slowArgs queryString).size.toNat).map fun j => pattern (j : Nat) := by
  have hrange := slowArgs_inRange queryString
  rw [slow_eq hmax, Option.map_eq_some_iff] at h
  obtain ⟨content, hloop, rfl⟩ := h
  obtain ⟨n, hn⟩ := Int.eq_ofNat_of_zero_le hpos
  have hcontent : content = (List.range n).map fun j => pattern (j : Nat) := by
    rcases Nat.eq_zero_or_pos n with rfl | hpos
    · cases passes with
      | zero => cases hloop
      | succ passes =>
        rw [hn, slowLoop, if_neg (by decide)] at hloop
        cases hloop
        rfl
    · obtain ⟨n', c, hn', hc, hnmax, hcmax⟩ := hrange.chunk (by omega)
      obtain rfl : n' = n := Int.natCast_inj.1 (hn'.symm.trans hn)
      rw [hn', hc] at hloop
      rw [slowLoop_pattern passes hcmax hnmax (Nat.zero_le n') hloop, Nat.sub_zero,
        List.range_eq_range']
  have htype : chars "Content-type: text/plain\r\n\r\n" =
      chars "Content-type: text/plain" ++ crlf ++ crlf := by decide
  have hlength : (slowArgs queryString).size = content.length := by
    rw [hn, hcontent, List.length_map, List.length_range]
  have hsize := hrange.size
  have hbody : (List.range (slowArgs queryString).size.toNat).map (fun j => pattern (j : Nat)) =
      content := by
    rw [hn, hcontent, Int.toNat_natCast]
  rw [hbody, slowHeader, htype, hlength]
  exact ⟨dynamic_measured (by decide) (by decide) (by omega),
    (dynamic_split _ (by decide) (by decide) content).2⟩

theorem twelve_in_chunks : Measured (dynamicHead ++ slowHeader 12 ++ chars "\n123456789\n1") ∧
    bodyOf (dynamicHead ++ (slowHeader 12 ++ chars "\n123456789\n1")) =
      (List.range 12).map fun j => pattern (j : Nat) := by
  have hslow : slow 4 (chars "size=12&chunksize=5") =
      some (slowHeader 12 ++ chars "\n123456789\n1") := by decide
  rw [List.append_assoc]
  exact slow_measured (chars "size=12&chunksize=5") hslow (by decide) (by decide)

end Cs324.Tiny
