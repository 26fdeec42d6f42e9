import Mathlib.Computability.StateTransition
import Mathlib.Data.Fintype.Pigeonhole
import Mathlib.Data.Set.Finite.Basic

namespace Cs324
set_option autoImplicit true
open StateTransition Relation

variable {σ : Type*} {f : σ → Option σ} {a b c : σ}

/-- What is reached from a state that leads back to itself leads back to itself. -/
theorem reaches₁_self (h : Reaches₁ f a a) (hr : Reaches f a b) : Reaches₁ f b b := by
  induction hr with
  | refl => exact h
  | tail _ hn ih => exact .tail' (reaches₁_fwd ih hn) hn

theorem not_reaches₁_of_none (h : f a = none) : ¬Reaches₁ f a b := by
  intro hr
  obtain ⟨c, hc, _⟩ := TransGen.head'_iff.1 hr
  rw [h] at hc
  cases hc

theorem reaches_invariant {I : σ → Prop} (h : Reaches f a b) (ha : I a)
    (hstep : ∀ {b c}, I b → f b = some c → I c) : I b := by
  induction h with
  | refl => exact ha
  | tail _ hn ih => exact hstep ih hn

/-- A walk has one end. -/
theorem end_unique (hb : Reaches f a b) (hc : Reaches f a c) (hb' : f b = none) (hc' : f c = none) :
    b = c := by
  rcases reaches_total hb hc with h | h
  · rcases ReflTransGen.cases_head h with h | ⟨d, hd, _⟩
    · exact h
    · rw [hb'] at hd
      cases hd
  · rcases ReflTransGen.cases_head h with h | ⟨d, hd, _⟩
    · exact h.symm
    · rw [hc'] at hd
      cases hd

/-- The states of a walk that never ends, in turn. -/
def stateAfter (f : σ → Option σ) (a : σ) : Nat → σ
  | 0 => a
  | n + 1 => (f (stateAfter f a n)).getD (stateAfter f a n)

theorem stateAfter_reaches (f : σ → Option σ) (a : σ) (n : Nat) :
    Reaches f a (stateAfter f a n) := by
  induction n with
  | zero => exact .refl
  | succ n ih =>
    rw [stateAfter]
    cases hn : f (stateAfter f a n) with
    | none => exact ih
    | some b => exact ih.tail hn

theorem stateAfter_reaches₁ (h : ∀ n, f (stateAfter f a n) ≠ none) (hlt : m < n) :
    Reaches₁ f (stateAfter f a m) (stateAfter f a n) := by
  have hnext : ∀ k, stateAfter f a (k + 1) ∈ f (stateAfter f a k) := by
    intro k
    obtain ⟨b, hb⟩ := Option.ne_none_iff_exists'.1 (h k)
    rw [stateAfter, hb]
    rfl
  induction n, hlt using Nat.le_induction with
  | base => exact .single (hnext m)
  | succ n _ ih => exact ih.tail (hnext n)

/-- A walk over finitely many states ends exactly if it comes to none that leads back to itself. -/
theorem walk_ends_iff (hfin : {s | f s ≠ none}.Finite) :
    (∃ b, Reaches f a b ∧ f b = none) ↔ ¬∃ c, Reaches f a c ∧ Reaches₁ f c c := by
  constructor
  · rintro ⟨b, hab, hb⟩ ⟨c, hac, hcc⟩
    rcases reaches_total hab hac with h | h
    · have hbc : b = c := by
        rcases ReflTransGen.cases_head h with h | ⟨d, hd, _⟩
        · exact h
        · rw [hb] at hd
          cases hd
      subst hbc
      exact not_reaches₁_of_none hb hcc
    · exact not_reaches₁_of_none hb (reaches₁_self hcc h)
  · intro hno
    by_contra hends
    have hgoes : ∀ n, f (stateAfter f a n) ≠ none :=
      fun n hn => hends ⟨_, stateAfter_reaches f a n, hn⟩
    have := hfin.to_subtype
    obtain ⟨m, n, hne, he⟩ := Finite.exists_ne_map_eq_of_infinite
      fun n => (⟨stateAfter f a n, hgoes n⟩ : {s | f s ≠ none})
    replace he : stateAfter f a m = stateAfter f a n := congrArg Subtype.val he
    rcases lt_or_gt_of_ne hne with hlt | hlt
    · have hcycle := stateAfter_reaches₁ hgoes hlt
      rw [← he] at hcycle
      exact hno ⟨_, stateAfter_reaches f a m, hcycle⟩
    · have hcycle := stateAfter_reaches₁ hgoes hlt
      rw [he] at hcycle
      exact hno ⟨_, stateAfter_reaches f a n, hcycle⟩

end Cs324
