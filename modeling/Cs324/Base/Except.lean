namespace Cs324
set_option autoImplicit true

/-- The error that a missing value stands for. -/
def orError (e : ε) : Option α → Except ε α
  | some a => .ok a
  | none => .error e

theorem orError_eq_ok : orError e r = .ok a ↔ r = some a := by
  cases r <;> simp [orError]

theorem bind_eq_ok {r : Except ε α} : (r >>= f) = .ok b ↔ ∃ a, r = .ok a ∧ f a = .ok b := by
  cases r <;> simp [bind, Except.bind]

theorem ok_bind (a : α) (f : α → Except ε β) : (.ok a >>= f) = f a := rfl

/-- Code that stops at an error unless a condition holds. -/
theorem ensure_eq_ok [Decidable p] {r : Except ε α} :
    (if p then r else .error e) = .ok a ↔ p ∧ r = .ok a := by
  by_cases hp : p <;> simp [hp]

end Cs324
