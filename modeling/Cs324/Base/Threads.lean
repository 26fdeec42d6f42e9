import Mathlib.Algebra.BigOperators.Group.Finset.Basic
import Mathlib.Algebra.GroupWithZero.Nat
import Mathlib.Data.Fintype.Basic

namespace Cs324
set_option autoImplicit true

/-- The value of a semaphore that `sem_wait` leaves; a thread waits while it is 0. -/
def semWait (sem : Nat) : Option Nat := if sem = 0 then none else some (sem - 1)

def semPost (sem : Nat) : Nat := sem + 1

theorem semWait_eq_some : semWait sem = some sem' ↔ sem = sem' + 1 := by
  rw [semWait]
  split
  · simp
    omega
  · simp
    omega

section total
variable {ω π : Type} [Fintype ω] [DecidableEq ω]

/-- How much all threads hold together, given what one holds by where it is. -/
def total (held : π → Nat) (threads : ω → π) : Nat := ∑ w, held (threads w)

theorem total_update (held : π → Nat) (threads : ω → π) (w : ω) (p : π) :
    total held (Function.update threads w p) + held (threads w) = total held threads + held p := by
  have hold := Finset.add_sum_erase Finset.univ (fun w => held (threads w)) (Finset.mem_univ w)
  have hnew := Finset.add_sum_erase Finset.univ
    (fun w' => held (Function.update threads w p w')) (Finset.mem_univ w)
  have hrest : ∑ w' ∈ Finset.univ.erase w, held (Function.update threads w p w') =
      ∑ w' ∈ Finset.univ.erase w, held (threads w') := by
    apply Finset.sum_congr rfl
    intro w' hw'
    rw [Function.update_of_ne (Finset.ne_of_mem_erase hw')]
  simp only [Function.update_self, hrest] at hnew
  simp only [total]
  omega

theorem le_total (held : π → Nat) (threads : ω → π) (w : ω) :
    held (threads w) ≤ total held threads := by
  have hsum := Finset.add_sum_erase Finset.univ (fun w => held (threads w)) (Finset.mem_univ w)
  rw [total, ← hsum]
  exact Nat.le_add_right _ _

end total

/-- What threads that are created one after another hold, when one of them takes a step. -/
theorem sum_map_set {l : List α} {i : Nat} (h : l[i]? = some a) (f : α → Nat) (b : α) :
    ((l.set i b).map f).sum + f a = (l.map f).sum + f b := by
  induction l generalizing i with
  | nil => cases h
  | cons c l ih =>
    cases i with
    | zero =>
      cases h
      simp only [List.set_cons_zero, List.map_cons, List.sum_cons]
      omega
    | succ i =>
      have hrest := ih (i := i) h
      simp only [List.set_cons_succ, List.map_cons, List.sum_cons]
      omega

theorem map_set_of_eq {l : List α} {i : Nat} (h : l[i]? = some a) {f : α → β} (hb : f b = f a) :
    (l.set i b).map f = l.map f := by
  induction l generalizing i with
  | nil => rfl
  | cons c l ih =>
    cases i with
    | zero =>
      cases h
      rw [List.set_cons_zero, List.map_cons, List.map_cons, hb]
    | succ i => rw [List.set_cons_succ, List.map_cons, List.map_cons, ih h]

end Cs324
