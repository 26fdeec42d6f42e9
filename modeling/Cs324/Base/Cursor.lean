import Mathlib.Data.List.Basic

namespace Cs324
set_option autoImplicit true

section entry
variable (pre rest : List α) (a b c : α)

/-- The entry at a cursor, which has `pre` before it. -/
theorem getElem?_entry : (pre ++ a :: rest)[pre.length]? = some a := by
  rw [List.getElem?_append_right (Nat.le_refl _), Nat.sub_self]
  rfl

theorem getElem?_next : (pre ++ a :: b :: rest)[pre.length + 1]? = some b := by
  rw [List.getElem?_append_right (Nat.le_add_right _ 1), Nat.add_sub_cancel_left]
  rfl

theorem set_entry : (pre ++ a :: rest).set pre.length c = pre ++ c :: rest := by
  rw [List.set_append_right _ _ (Nat.le_refl _), Nat.sub_self]
  rfl

end entry

theorem getElem?_of_drop {l : List α} (h : l.drop i = a :: rest) :
    l[i]? = some a ∧ l.drop (i + 1) = rest := by
  constructor
  · rw [← List.head?_drop, h]
    rfl
  · rw [← List.tail_drop, h]
    rfl

theorem length_of_drop {l : List α} (h : l.drop i = a :: rest) :
    l.length = i + rest.length + 1 := by
  have hlength := congrArg List.length h
  rw [List.length_drop, List.length_cons] at hlength
  omega

theorem getElem?_set_some {l : List α} {i k : Nat} (h : (l.set k b)[i]? = some a) :
    i = k ∧ a = b ∨ l[i]? = some a := by
  rw [List.getElem?_set] at h
  split at h
  next he =>
    split at h
    · cases h
      exact .inl ⟨he.symm, rfl⟩
    · cases h
  next => exact .inr h

/-- An entry of a list that one has been appended to is an earlier one, or that one. -/
theorem getElem?_append_some {l : List α} {i : Nat} (h : (l ++ [b])[i]? = some a) :
    (i < l.length ∧ l[i]? = some a) ∨ (i = l.length ∧ a = b) := by
  rcases Nat.lt_or_ge i l.length with hlt | hge
  · rw [List.getElem?_append_left hlt] at h
    exact .inl ⟨hlt, h⟩
  · rw [List.getElem?_append_right hge] at h
    obtain ⟨hz, rfl⟩ := List.getElem?_eq_some_iff.1 h
    rw [List.length_singleton] at hz
    exact .inr ⟨by omega, List.getElem_singleton _⟩

end Cs324
