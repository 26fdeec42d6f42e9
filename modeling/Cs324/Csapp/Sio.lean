import Cs324.Base.Numeral
import Mathlib.Data.List.Induction

namespace Cs324.Csapp
set_option autoImplicit true

/-- The loop of `sio_reverse` over the bytes from `i` to `j`. -/
def reverseLoop (s : List UInt8) (i j : Nat) : List UInt8 :=
  if i < j then
    let c := s.getD i 0
    reverseLoop ((s.set i (s.getD j 0)).set j c) (i + 1) (j - 1)
  else s
termination_by j - i

/-- `sio_reverse`; the `j` of an empty string is -1, for which the loop does nothing either. -/
def sioReverse (s : List UInt8) : List UInt8 := reverseLoop s 0 ((cstring s).length - 1)

/-- The loop of `sio_ltoa`, unless it takes more passes than this or leaves the array: `i` and the
array behind it. -/
def ltoaLoop (b : Int) : Nat → Int → List UInt8 → Nat → Option (Nat × List UInt8)
  | 0, _, _, _ => none
  | passes + 1, v, s, i =>
    let c := v.tmod b
    if i < s.length then
      let s := s.set i (UInt8.ofInt (if c < 10 then c + 48 else c - 10 + 97))
      let v := v.tdiv b
      if 0 < v then ltoaLoop b passes v s (i + 1) else some (i + 1, s)
    else none

def sioLtoa (passes : Nat) (v : Int) (s : List UInt8) (b : Int) : Option (List UInt8) :=
  (ltoaLoop b passes v s 0).bind fun (i, s) =>
    if i < s.length then some (sioReverse (s.set i 0)) else none

/-- What `sio_putl` gives to `write`. -/
def sioPutl (passes : Nat) (v : Int) (s : List UInt8) : Option (List UInt8) :=
  (sioLtoa passes v s 10).map cstring

theorem set_middle (front behind : List UInt8) (c d : UInt8) :
    (front ++ c :: behind).set front.length d = front ++ d :: behind := by
  rw [List.set_append_right _ _ le_rfl, Nat.sub_self, List.set_cons_zero]

theorem getD_middle (front behind : List UInt8) (c d : UInt8) :
    (front ++ c :: behind).getD front.length d = c := by
  simp

/-- Each pass swaps the outermost two bytes. -/
theorem reverseLoop_eq (front middle behind : List UInt8) :
    reverseLoop (front ++ (middle ++ behind)) front.length (front.length + middle.length - 1) =
      front ++ (middle.reverse ++ behind) := by
  induction middle using List.bidirectionalRec generalizing front behind with
  | nil => rw [reverseLoop, if_neg (by simp)]; rfl
  | singleton c => rw [reverseLoop, if_neg (by simp)]; rfl
  | cons_append c middle d ih =>
    have hj (e : UInt8) : front.length + (c :: (middle ++ [d])).length - 1 =
        (front ++ e :: middle).length := by
      simp only [List.length_append, List.length_cons, List.length_nil]
      omega
    have hsplit (e : UInt8) (rest : List UInt8) :
        front ++ e :: (middle ++ rest) = (front ++ e :: middle) ++ rest := by simp
    have hbytes : front ++ (c :: (middle ++ [d]) ++ behind) =
        front ++ c :: (middle ++ d :: behind) := by simp
    rw [reverseLoop, if_pos (by simp), hbytes, hj c]
    dsimp only
    rw [getD_middle, set_middle, hsplit c, getD_middle, hsplit d, ← hj c, hj d, set_middle]
    have hrest := ih (front ++ [d]) (c :: behind)
    have hi : (front ++ [d]).length = front.length + 1 := by simp
    have hlast : (front ++ d :: middle).length - 1 = front.length + 1 + middle.length - 1 := by
      simp only [List.length_append, List.length_cons]
      omega
    rw [hi] at hrest
    rw [hlast]
    simpa using hrest

theorem sioReverse_string (text : List UInt8) (h0 : 0 ∉ text) (behind : List UInt8) :
    sioReverse (text ++ 0 :: behind) = text.reverse ++ 0 :: behind := by
  rw [sioReverse, cstring_terminate, cstring_eq_self h0]
  simpa using reverseLoop_eq [] text (0 :: behind)

/-- The digits are stored from the last one to the first. -/
theorem ltoaLoop_decimal (v : Nat) (front rest : List UInt8)
    (hroom : (decimal v).length ≤ rest.length) (hp : (decimal v).length ≤ passes) :
    ltoaLoop 10 passes v (front ++ rest) front.length =
      some (front.length + (decimal v).length,
        front ++ ((decimal v).reverse ++ rest.drop (decimal v).length)) := by
  induction v using Nat.strong_induction_on generalizing front rest passes with
  | _ v ih =>
    have hpos := List.length_pos_iff.2 (decimal_numeral v).1.1
    obtain ⟨passes, rfl⟩ := Nat.exists_eq_add_of_le' (Nat.le_trans hpos hp)
    obtain ⟨c, rest, rfl⟩ : ∃ c rest', rest = c :: rest' :=
      List.exists_cons_of_length_pos (by omega)
    have hmod : (v : Int).tmod 10 = (v % 10 : Nat) := rfl
    have hdiv : (v : Int).tdiv 10 = (v / 10 : Nat) := rfl
    have hdigit : UInt8.ofInt (if (v : Int).tmod 10 < 10 then (v : Int).tmod 10 + 48
        else (v : Int).tmod 10 - 10 + 97) = UInt8.ofNat (48 + v % 10) := by
      have hall : ∀ d < 10, UInt8.ofInt ((d : Nat) + 48) = UInt8.ofNat (48 + d) := by decide
      rw [hmod, if_pos (by omega), hall _ (Nat.mod_lt v (by decide))]
    rw [ltoaLoop]
    dsimp only
    rw [if_pos (by simp), set_middle, hdigit, hdiv]
    by_cases hlt : v < 10
    · have hone : decimal v = [UInt8.ofNat (48 + v)] := by rw [decimal_cons, if_pos hlt]
      rw [if_neg (by omega), hone, Nat.mod_eq_of_lt hlt]
      rfl
    · have hmany : decimal v = decimal (v / 10 : Nat) ++ [UInt8.ofNat (48 + v % 10)] := by
        rw [decimal_cons, if_neg hlt]
      rw [hmany, List.length_append, List.length_singleton] at hp hroom
      have hrest := @ih (v / 10) (by omega) passes (front ++ [UInt8.ofNat (48 + v % 10)]) rest
        (by rw [List.length_cons] at hroom; omega) (by omega)
      rw [if_pos (by omega), hmany]
      simpa [Nat.add_assoc, Nat.add_comm 1] using hrest

/-- A negative number leaves the loop after one pass. -/
theorem ltoaLoop_neg (hneg : v < 0) (passes : Nat) (c : UInt8) (rest : List UInt8) :
    ∃ d, d ≠ 0 ∧ ltoaLoop 10 (passes + 1) v (c :: rest) 0 = some (1, d :: rest) := by
  obtain ⟨n, rfl⟩ : ∃ n : Nat, v = -n := ⟨v.natAbs, by omega⟩
  have hmod : (-(n : Int)).tmod 10 = -(n % 10 : Nat) := Int.neg_tmod n 10
  have hdiv : (-(n : Int)).tdiv 10 = -(n / 10 : Nat) := Int.neg_tdiv n 10
  have hdigit : ∀ d < 10, UInt8.ofInt (-(d : Nat) + 48) ≠ 0 := by decide
  refine ⟨_, hdigit (n % 10) (Nat.mod_lt n (by decide)), ?_⟩
  rw [ltoaLoop, hmod, hdiv]
  dsimp only
  have hroom : 0 < (c :: rest).length := Nat.succ_pos _
  rw [if_pos hroom, if_neg (by omega : ¬(0 : Int) < -(n / 10 : Nat)),
    if_pos (by omega : -((n % 10 : Nat) : Int) < 10)]
  rfl

/-- What is stored without a sign is turned around and ended. -/
theorem sioLtoa_stored (text rest : List UInt8) (h0 : 0 ∉ text)
    (h : ltoaLoop 10 passes v s 0 = some (text.length, text ++ rest)) (hrest : rest ≠ []) :
    sioPutl passes v s = some text.reverse := by
  obtain ⟨c, rest, rfl⟩ := List.exists_cons_of_ne_nil hrest
  rw [sioPutl, sioLtoa, h, Option.bind_some]
  dsimp only
  rw [if_pos (by simp), set_middle, sioReverse_string text h0, Option.map_some, cstring_terminate,
    cstring_eq_self (by simpa using h0)]

theorem sioPutl_nonneg (n : Nat) (hn : n < 10 ^ 19) (hs : 19 < s.length) (hp : 19 ≤ passes) :
    sioPutl passes n s = some (decimal n) := by
  have hlength := decimal_length_le (by decide) hn
  have hloop : ltoaLoop 10 passes n s 0 = _ := ltoaLoop_decimal n [] s (by omega) (by omega)
  have h0 : 0 ∉ (decimal n).reverse := by
    rw [List.mem_reverse]
    exact not_mem_decimal rfl (by decide) n
  have hstored := sioLtoa_stored (decimal n).reverse (s.drop (decimal n).length) h0
    (by simpa using hloop) (by simp; omega)
  rwa [List.reverse_reverse] at hstored

theorem sioPutl_neg (hneg : v < 0) (hs : 1 < s.length) (passes : Nat) :
    ∃ c, sioPutl (passes + 1) v s = some [c] := by
  obtain ⟨c, rest, rfl⟩ := List.exists_cons_of_length_pos (Nat.zero_lt_of_lt hs)
  obtain ⟨d, hd, hloop⟩ := ltoaLoop_neg hneg passes c rest
  refine ⟨d, sioLtoa_stored [d] rest (by simpa using hd.symm) hloop ?_⟩
  rintro rfl
  simp at hs

/-- `sio_putl` writes what `%ld` would print exactly for the numbers that are not negative, and one
byte for all others. -/
theorem sio_putl_writes (v : Int) (s : List UInt8) (passes : Nat) (hs : s.length = 128)
    (hv : v < 9223372036854775808) (hpasses : 19 ≤ passes) :
    (sioPutl passes v s = some (decimal v) ↔ 0 ≤ v) ∧
      (v < 0 → ∃ c, sioPutl passes v s = some [c]) := by
  obtain ⟨passes, rfl⟩ := Nat.exists_eq_add_of_le' hpasses
  refine ⟨⟨fun h => ?_, fun h => ?_⟩, fun hneg => sioPutl_neg hneg (by omega) _⟩
  · by_contra hneg
    obtain ⟨c, hc⟩ := @sioPutl_neg v s (by omega) (by omega) (passes + 18)
    obtain ⟨n, rfl⟩ := Int.eq_negSucc_of_lt_zero (by omega : v < 0)
    rw [hc, decimal_negSucc, Option.some.injEq, List.cons.injEq] at h
    exact (decimal_numeral (n + 1)).1.1 h.2.symm
  · obtain ⟨n, rfl⟩ := Int.eq_ofNat_of_zero_le h
    exact sioPutl_nonneg n (by omega) (by omega) (by omega)

theorem minus_lost : sioPutl 19 (-15) (List.replicate 128 0) ≠ some (decimal (-15)) ∧
    ∃ c, sioPutl 19 (-15) (List.replicate 128 0) = some [c] := by
  obtain ⟨hiff, hone⟩ := sio_putl_writes (-15) (List.replicate 128 0) 19 List.length_replicate
    (by decide) le_rfl
  exact ⟨fun h => absurd (hiff.1 h) (by decide), hone (by decide)⟩

end Cs324.Csapp
