import Cs324.Base.CLib

namespace Cs324
set_option autoImplicit true

/-- The remainder by `n` of an `int` that has been incremented `k` times from 0. It has the sign of
the counter. -/
def counterIndex (n k : Nat) : Int := (int32 k).tmod n

/-- No counter up to `k` has a negative remainder: it has not wrapped, or has just done so at a
multiple of `n`, or there is only one remainder. -/
def BeforeWrap (n k : Nat) : Prop :=
  n = 1 ∨ k < 2147483648 ∨ (n ∣ 2147483648 ∧ k = 2147483648)

section counter
variable {n m j k : Nat}

theorem int32_succ (k : Nat) : int32 (int32 k + 1) = int32 (k + 1 : Nat) := by
  unfold int32
  omega

theorem counterIndex_eq (h : BeforeWrap n m) (hk : k ≤ m) :
    counterIndex n k = ((k % n : Nat) : Int) := by
  have hsmall (hk : k < 2147483648) : counterIndex n k = ((k % n : Nat) : Int) := by
    rw [counterIndex, int32_eq (Int.natCast_nonneg k) (Int.ofNat_lt.2 hk), ← Int.ofNat_tmod]
  rcases h with rfl | h | ⟨hd, rfl⟩
  · rw [counterIndex, Nat.mod_one]
    exact Int.tmod_one _
  · exact hsmall (hk.trans_lt h)
  · rcases Nat.lt_or_eq_of_le hk with hk | rfl
    · exact hsmall hk
    · have hwrap : int32 ((2147483648 : Nat) : Int) = -((2147483648 : Nat) : Int) := by decide
      rw [counterIndex, hwrap, Int.neg_tmod, ← Int.ofNat_tmod, Nat.mod_eq_zero_of_dvd hd]
      rfl

theorem counterIndex_bounds (h : BeforeWrap n m) (hn : 1 ≤ n) (hk : k ≤ m) :
    0 ≤ counterIndex n k ∧ counterIndex n k < n := by
  rw [counterIndex_eq h hk]
  exact ⟨Int.natCast_nonneg _, Int.ofNat_lt.2 (Nat.mod_lt _ hn)⟩

/-- Numbers that are fewer than `n` apart have different remainders. -/
theorem mod_ne (hlt : j < k) (h : k < j + n) : j % n ≠ k % n := by
  intro he
  have hz := Nat.sub_mod_eq_zero_of_mod_eq he.symm
  rw [Nat.mod_eq_of_lt (by omega)] at hz
  omega

theorem counterIndex_ne (h : BeforeWrap n m) (hlt : j < k) (hjk : k < j + n) (hk : k ≤ m) :
    counterIndex n j ≠ counterIndex n k := by
  rw [counterIndex_eq h (hlt.le.trans hk), counterIndex_eq h hk, Ne, Int.natCast_inj]
  exact mod_ne hlt hjk

theorem tmod_neg (h : ¬n ∣ k) : (-(k : Int)).tmod n < 0 := by
  have hpos : 0 < k % n := Nat.pos_of_ne_zero fun hz => h (Nat.dvd_of_mod_eq_zero hz)
  rw [Int.neg_tmod, ← Int.ofNat_tmod]
  omega

/-- A counter that has wrapped has had a negative remainder. -/
theorem exists_negative (h : ¬BeforeWrap n m) : ∃ k < m, counterIndex n (k + 1) < 0 := by
  simp only [BeforeWrap, not_or, not_and, Nat.not_lt] at h
  obtain ⟨h1, hm, hne⟩ := h
  -- the first counter after the wrap, or the second one if that is a multiple of `n`
  by_cases hd : n ∣ 2147483648
  · have hnd : ¬n ∣ 2147483647 := fun hd' => h1 (Nat.dvd_one.1 (Nat.dvd_sub hd hd'))
    exact ⟨2147483648, lt_of_le_of_ne hm (Ne.symm (hne hd)), tmod_neg hnd⟩
  · exact ⟨2147483647, hm, tmod_neg hd⟩

end counter
end Cs324
