import Cs324.Base.CLib
import Mathlib.Tactic.IntervalCases

namespace Cs324
set_option autoImplicit true

/-- A decimal numeral has no sign and nothing but digits. -/
def IsNumeral (s : List UInt8) : Prop := s ≠ [] ∧ ∀ c ∈ s, isdigit c = true

instance (s : List UInt8) : Decidable (IsNumeral s) := inferInstanceAs (Decidable (_ ∧ _))

theorem IsNumeral.not_mem (h : IsNumeral s) (hc : isdigit c = false) : c ∉ s := by
  intro hmem
  rw [h.2 c hmem] at hc
  cases hc

theorem digits_eq (h : ∀ c ∈ s, isdigit c = true) :
    digits s = s.foldl (fun n c => 10 * n + (c.toNat - 48 : Int)) 0 := by
  rw [digits, List.takeWhile_eq_self_iff.2 h]

theorem digits_terminated (s more : List UInt8) : digits (s ++ 0 :: more) = digits s := by
  have htake : (s ++ 0 :: more).takeWhile isdigit = s.takeWhile isdigit := by
    induction s with
    | nil => rfl
    | cons c s ih => rw [List.cons_append, List.takeWhile_cons, List.takeWhile_cons, ih]
  rw [digits, htake, digits]

theorem atoi_minus (h : s.dropWhile isspace = 45 :: rest) :
    atoi s = int32 (max (-9223372036854775808) (min 9223372036854775807 (-digits rest))) := by
  simp only [atoi, h]

theorem atoi_plus (h : s.dropWhile isspace = 43 :: rest) :
    atoi s = int32 (max (-9223372036854775808) (min 9223372036854775807 (digits rest))) := by
  simp only [atoi, h]

theorem atoi_unsigned (h : s.dropWhile isspace = rest) (hm : rest.head? ≠ some 45)
    (hp : rest.head? ≠ some 43) :
    atoi s = int32 (max (-9223372036854775808) (min 9223372036854775807 (digits rest))) := by
  rw [atoi, h]
  split
  next => exact absurd rfl hm
  next => exact absurd rfl hp
  next => rfl

/-- `atoi` does not look behind the end of the string. -/
theorem atoi_terminated (s more : List UInt8) : atoi (s ++ 0 :: more) = atoi s := by
  have hskip : (s ++ 0 :: more).dropWhile isspace = s.dropWhile isspace ++ 0 :: more := by
    induction s with
    | nil => rfl
    | cons c s ih =>
      rw [List.cons_append, List.dropWhile_cons, List.dropWhile_cons, ih]
      split <;> rfl
  cases hrest : s.dropWhile isspace with
  | nil =>
    rw [hrest] at hskip
    rw [atoi_unsigned hskip (by simp) (by simp), atoi_unsigned hrest (by simp) (by simp),
      digits_terminated]
  | cons c rest =>
    rw [hrest, List.cons_append] at hskip
    by_cases hm : c = 45
    · subst hm
      rw [atoi_minus hskip, atoi_minus hrest, digits_terminated]
    · by_cases hp : c = 43
      · subst hp
        rw [atoi_plus hskip, atoi_plus hrest, digits_terminated]
      · rw [atoi_unsigned hskip (by simpa using hm) (by simpa using hp),
          atoi_unsigned hrest (by simpa using hm) (by simpa using hp), ← List.cons_append,
          digits_terminated]

theorem isdigit_bounds (h : isdigit c = true) : 48 ≤ c.toNat ∧ c.toNat ≤ 57 := by
  simpa [isdigit, UInt8.le_iff_toNat_le] using h

theorem digits_append (hs : ∀ c ∈ s, isdigit c = true) (hc : isdigit c = true) :
    digits (s ++ [c]) = 10 * digits s + (c.toNat - 48 : Int) := by
  have hall : ∀ d ∈ s ++ [c], isdigit d = true := by
    intro d hd
    rcases List.mem_append.1 hd with hd | hd
    · exact hs d hd
    · rw [List.mem_singleton.1 hd]
      exact hc
  rw [digits_eq hall, digits_eq hs, List.foldl_append]
  rfl

theorem digits_nonneg (s : List UInt8) : 0 ≤ digits s := by
  have hstep (s : List UInt8) (n : Int) (hn : 0 ≤ n) (h : ∀ c ∈ s, isdigit c = true) :
      0 ≤ s.foldl (fun n c => 10 * n + (c.toNat - 48 : Int)) n := by
    induction s generalizing n with
    | nil => exact hn
    | cons c s ih =>
      have hc := isdigit_bounds (h c List.mem_cons_self)
      have hnext : 0 ≤ 10 * n + (c.toNat - 48 : Int) := by omega
      exact ih _ hnext fun d hd => h d (List.mem_cons_of_mem _ hd)
  exact hstep _ 0 (Int.le_refl 0) fun c hc => List.mem_takeWhile_imp hc

theorem isspace_of_digit (h : isdigit c = true) : isspace c = false := by
  have hc := isdigit_bounds h
  have h32 : c ≠ 32 := by
    rintro rfl
    exact absurd hc.1 (by decide)
  have h13 : ¬c ≤ 13 := by
    rw [UInt8.le_iff_toNat_le]
    exact Nat.not_le.2 (Nat.lt_of_lt_of_le (by decide) hc.1)
  simp [isspace, h32, h13]

/-- `atoi` reads a numeral, but for what does not fit its types. -/
theorem atoi_numeral (h : IsNumeral s) :
    atoi s = int32 (min 9223372036854775807 (digits s)) := by
  obtain ⟨hne, hall⟩ := h
  have hpos := digits_nonneg s
  obtain ⟨c, rest, rfl⟩ := List.exists_cons_of_ne_nil hne
  have hc := hall c List.mem_cons_self
  have hbounds := isdigit_bounds hc
  have hskip : (c :: rest).dropWhile isspace = c :: rest := by
    rw [List.dropWhile_cons, isspace_of_digit hc]
    rfl
  have hsign (d : UInt8) (hd : d.toNat < 48) : (c :: rest).head? ≠ some d := by
    rintro heq
    cases heq
    omega
  rw [atoi_unsigned hskip (hsign 45 (by decide)) (hsign 43 (by decide))]
  congr 1
  omega

theorem atoi_inRange (h : IsNumeral s) (hr : digits s ≤ 2147483647) : atoi s = digits s := by
  have hpos := digits_nonneg s
  rw [atoi_numeral h, Int.min_eq_right (by omega), int32]
  omega

/-- `atoi` stops at the first byte that is no digit. -/
theorem atoi_numeral_append (h : IsNumeral s) (hr : digits s ≤ 2147483647)
    (hc : isdigit c = false) (more : List UInt8) : atoi (s ++ c :: more) = digits s := by
  obtain ⟨hne, hall⟩ := h
  have hpos := digits_nonneg s
  obtain ⟨d, rest, rfl⟩ := List.exists_cons_of_ne_nil hne
  have hd := hall d List.mem_cons_self
  have hbounds := isdigit_bounds hd
  have hskip : (d :: rest ++ c :: more).dropWhile isspace = d :: rest ++ c :: more := by
    rw [List.cons_append, List.dropWhile_cons, isspace_of_digit hd]
    rfl
  have hsign (e : UInt8) (he : e.toNat < 48) : (d :: rest ++ c :: more).head? ≠ some e := by
    rintro heq
    cases heq
    omega
  have hdigits : digits (d :: rest ++ c :: more) = digits (d :: rest) := by
    rw [digits, List.takeWhile_append_of_pos hall, List.takeWhile_cons, hc, digits_eq hall]
    simp
  rw [atoi_unsigned hskip (hsign 45 (by decide)) (hsign 43 (by decide)), hdigits, int32]
  omega

theorem atoi_le (s : List UInt8) : atoi s ≤ 2147483647 := int32_le _

theorem decimal_cons (n : Nat) : decimal n = if n < 10 then [UInt8.ofNat (48 + n)]
    else decimal ((n / 10 : Nat)) ++ [UInt8.ofNat (48 + n % 10)] := by
  have hrepr (n : Nat) : decimal n = (Nat.toDigits 10 n).map fun c => UInt8.ofNat c.toNat :=
    congrArg _ Nat.toList_repr
  have hdigit (d : Nat) (hd : d < 10) :
      UInt8.ofNat (Nat.digitChar d).toNat = UInt8.ofNat (48 + d) := by
    interval_cases d <;> rfl
  rw [hrepr, hrepr]
  split
  next h => rw [Nat.toDigits_of_lt_base h, List.map_singleton, hdigit n h]
  next h =>
    rw [Nat.toDigits_of_base_le (by decide) (by omega), List.map_append, List.map_singleton,
      hdigit _ (Nat.mod_lt n (by decide))]

/-- `%d` prints a numeral. -/
theorem decimal_numeral (n : Nat) : IsNumeral (decimal n) ∧ digits (decimal n) = n := by
  induction n using Nat.strong_induction_on with
  | _ n ih =>
    have hchar (d : Nat) (hd : d < 10) : isdigit (UInt8.ofNat (48 + d)) = true ∧
        ((UInt8.ofNat (48 + d)).toNat - 48 : Int) = d := by
      interval_cases d <;> decide
    rw [decimal_cons]
    split
    next h =>
      obtain ⟨hdigit, hvalue⟩ := hchar n h
      refine ⟨⟨List.cons_ne_nil _ _, fun c hc => ?_⟩, ?_⟩
      · rw [List.mem_singleton.1 hc]
        exact hdigit
      · have hone := digits_append (List.forall_mem_nil _) hdigit
        rw [List.nil_append, hvalue] at hone
        rw [hone]
        exact Int.zero_add _
    next h =>
      obtain ⟨⟨hne, hall⟩, hfront⟩ := ih (n / 10) (by omega)
      obtain ⟨hdigit, hvalue⟩ := hchar (n % 10) (Nat.mod_lt n (by decide))
      refine ⟨⟨List.append_ne_nil_of_left_ne_nil hne _, fun c hc => ?_⟩, ?_⟩
      · rcases List.mem_append.1 hc with hc | hc
        · exact hall c hc
        · rw [List.mem_singleton.1 hc]
          exact hdigit
      · rw [digits_append hall hdigit, hfront, hvalue]
        omega

theorem decimal_length (h : 10 ≤ n) : 2 ≤ (decimal (n : Nat)).length := by
  have hpos := List.length_pos_iff.2 (decimal_numeral (n / 10)).1.1
  rw [decimal_cons, if_neg (by omega), List.length_append, List.length_singleton]
  omega

theorem decimal_negSucc (n : Nat) : decimal (Int.negSucc n) = 45 :: decimal (n + 1 : Nat) := by
  change chars ("-" ++ toString (n + 1)) = 45 :: chars (toString (n + 1))
  rw [chars, String.toList_append, List.map_append]
  rfl

/-- `%d` prints digits and a minus sign. -/
theorem not_mem_decimal (hc : isdigit c = false) (hminus : c ≠ 45) (n : Int) : c ∉ decimal n := by
  cases n with
  | ofNat n => exact (decimal_numeral n).1.not_mem hc
  | negSucc n =>
    rw [decimal_negSucc, List.mem_cons, not_or]
    exact ⟨hminus, (decimal_numeral (n + 1)).1.not_mem hc⟩

/-- `atoi` reads back what `%d` prints. -/
theorem atoi_decimal (hl : -2147483648 ≤ n) (hu : n < 2147483648) : atoi (decimal n) = n := by
  cases n with
  | ofNat n =>
    obtain ⟨hnumeral, hdigits⟩ := decimal_numeral n
    rw [Int.ofNat_eq_natCast] at hu ⊢
    rw [atoi_inRange hnumeral (by omega), hdigits]
  | negSucc n =>
    obtain ⟨-, hdigits⟩ := decimal_numeral (n + 1)
    have hskip : (45 :: decimal (n + 1 : Nat)).dropWhile isspace =
        45 :: decimal (n + 1 : Nat) := rfl
    rw [decimal_negSucc, atoi_minus hskip, hdigits]
    simp only [int32]
    omega

theorem decimal_length_le (hk : 0 < k) (h : n < 10 ^ k) : (decimal (n : Nat)).length ≤ k := by
  induction k generalizing n with
  | zero => cases hk
  | succ k ih =>
    rw [decimal_cons]
    split
    · exact Nat.succ_le_succ (Nat.zero_le k)
    · rename_i hten
      have hdiv : n / 10 < 10 ^ k := Nat.div_lt_of_lt_mul (by rwa [Nat.mul_comm, ← Nat.pow_succ])
      have hpos : 0 < k := by
        rcases Nat.eq_zero_or_pos k with rfl | hpos
        · exact absurd h hten
        · exact hpos
      rw [List.length_append]
      exact Nat.succ_le_succ (ih hpos hdiv)

end Cs324
