import Mathlib.Logic.Basic
import Mathlib.Data.List.Basic
import Mathlib.Tactic.TypeStar

namespace Cs324
set_option autoImplicit true

/-- A machine whose choices are all made by the action it is given; a disabled action has no
successor. -/
structure Machine (σ α : Type*) where
  start : σ
  next : σ → α → Option σ

namespace Machine
variable {σ α : Type*} (M : Machine σ α)

def exec : σ → List α → Option σ
  | s, [] => some s
  | s, a :: as => (M.next s a).bind fun t => exec t as

/-- The states that runs reach when every step meets the condition `ok` on the state before it
and its action. -/
inductive Reach (ok : σ → α → Prop) : σ → Prop
  | start : Reach ok M.start
  | step : Reach ok s → ok s a → M.next s a = some t → Reach ok t

abbrev Reachable : σ → Prop := M.Reach fun _ _ => True

variable {M} {ok ok' : σ → α → Prop} {P Q : σ → α → Prop} {I : σ → Prop}

/-- Induction over runs: the step case may use that the state before it is reached. -/
theorem Reach.invariant (h : M.Reach ok s) (hstart : I M.start)
    (hstep : ∀ {t a u}, M.Reach ok t → I t → ok t a → M.next t a = some u → I u) : I s := by
  induction h with
  | start => exact hstart
  | step hr hok hn ih => exact hstep hr ih hok hn

theorem Reach.mono (h : M.Reach ok s) (himp : ∀ {t a}, ok t a → ok' t a) : M.Reach ok' s := by
  induction h with
  | start => exact .start
  | step _ hok hn ih => exact .step ih (himp hok) hn

theorem Reach.reachable (h : M.Reach ok s) : M.Reachable s :=
  h.mono fun _ => trivial

theorem exec_cons (s : σ) (a : α) (as : List α) :
    M.exec s (a :: as) = (M.next s a).bind fun t => M.exec t as := rfl

theorem exec_of_next (h : M.next s a = some t) (as : List α) :
    M.exec s (a :: as) = M.exec t as := by
  rw [exec_cons, h, Option.bind_some]

theorem exec_append (s : σ) (as bs : List α) :
    M.exec s (as ++ bs) = (M.exec s as).bind fun t => M.exec t bs := by
  induction as generalizing s with
  | nil => rfl
  | cons a as ih =>
    rw [List.cons_append, exec_cons, exec_cons, Option.bind_assoc]
    congr 1
    funext t
    exact ih t

/-- A step condition holds at each step of the run that `as` drives from `s`. -/
def Along (M : Machine σ α) (P : σ → α → Prop) : σ → List α → Prop
  | _, [] => True
  | s, a :: as => P s a ∧ ∀ t, M.next s a = some t → Along M P t as

def decideAlong [∀ s a, Decidable (P s a)] : ∀ s as, Decidable (M.Along P s as)
  | _, [] => .isTrue trivial
  | s, a :: as =>
    have : Decidable (∀ t, M.next s a = some t → M.Along P t as) :=
      match _h : M.next s a with
      | none => .isTrue fun _ ht => nomatch ht
      | some t =>
        have := decideAlong t as
        decidable_of_iff (M.Along P t as)
          ⟨fun ha _ ht => Option.some.inj ht ▸ ha, fun ha => ha t rfl⟩
    inferInstanceAs (Decidable (P s a ∧ _))

instance [∀ s a, Decidable (P s a)] (s : σ) (as : List α) : Decidable (M.Along P s as) :=
  decideAlong s as

theorem Reach.exec (h : M.Reach ok s) (has : M.Along ok s as) (he : M.exec s as = some t) :
    M.Reach ok t := by
  induction as generalizing s with
  | nil =>
    cases he
    exact h
  | cons a as ih =>
    rw [exec_cons, Option.bind_eq_some_iff] at he
    obtain ⟨u, hu, he⟩ := he
    exact ih (h.step has.1 hu) (has.2 u hu) he

theorem exec_invariant (hs : I s) (hstep : ∀ {t a u}, I t → ok t a → M.next t a = some u → I u)
    (has : M.Along ok s as) (he : M.exec s as = some t) : I t := by
  induction as generalizing s with
  | nil =>
    cases he
    exact hs
  | cons a as ih =>
    rw [exec_cons, Option.bind_eq_some_iff] at he
    obtain ⟨u, hu, he⟩ := he
    exact ih (hstep hs has.1 hu) (has.2 u hu) he

theorem Along.with_invariant (has : M.Along ok s as) (hs : I s)
    (hstep : ∀ {t a u}, I t → ok t a → M.next t a = some u → I u) :
    M.Along (fun t a => I t ∧ ok t a) s as := by
  induction as generalizing s with
  | nil => trivial
  | cons a as ih => exact ⟨⟨hs, has.1⟩, fun t ht => ih (has.2 t ht) (hstep hs has.1 ht)⟩

/-- Where each step uses up something, a run is no longer than what there is of it. -/
theorem exec_length_le (work : σ → Nat)
    (hstep : ∀ {t a u}, ok t a → M.next t a = some u → work u < work t)
    (has : M.Along ok s as) (he : M.exec s as = some t) : as.length + work t ≤ work s := by
  induction as generalizing s with
  | nil =>
    cases he
    exact Nat.le_of_eq (Nat.zero_add _)
  | cons a as ih =>
    rw [exec_cons, Option.bind_eq_some_iff] at he
    obtain ⟨u, hu, he⟩ := he
    have hrest := ih (has.2 u hu) he
    have hless := hstep has.1 hu
    rw [List.length_cons]
    omega

theorem along_true (s : σ) (as : List α) : M.Along (fun _ _ => True) s as := by
  induction as generalizing s with
  | nil => trivial
  | cons a as ih => exact ⟨trivial, fun t _ => ih t⟩

theorem exec_concat (s : σ) (as : List α) (a : α) :
    M.exec s (as ++ [a]) = (M.exec s as).bind fun t => M.next t a := by
  rw [exec_append]
  congr 1
  funext t
  rw [exec_cons]
  cases M.next t a <;> rfl

theorem Along.mono (h : M.Along P s as) (himp : ∀ {t a}, P t a → Q t a) : M.Along Q s as := by
  induction as generalizing s with
  | nil => trivial
  | cons a as ih => exact ⟨himp h.1, fun t ht => ih (h.2 t ht)⟩

theorem Along.and (h : M.Along P s as) (h' : M.Along Q s as) :
    M.Along (fun t a => P t a ∧ Q t a) s as := by
  induction as generalizing s with
  | nil => trivial
  | cons a as ih => exact ⟨⟨h.1, h'.1⟩, fun t ht => ih (h.2 t ht) (h'.2 t ht)⟩

theorem along_of_next (hP : P s a) (h : M.next s a = some t) (has : M.Along P t as) :
    M.Along P s (a :: as) := by
  refine ⟨hP, fun u hu => ?_⟩
  cases h.symm.trans hu
  exact has

theorem Along.concat (h : M.Along P s (as ++ [a])) (he : M.exec s as = some t) : P t a := by
  induction as generalizing s with
  | nil =>
    cases he
    exact h.1
  | cons b as ih =>
    rw [exec_cons, Option.bind_eq_some_iff] at he
    obtain ⟨u, hu, he⟩ := he
    exact ih (h.2 u hu) he

theorem Along.front (h : M.Along P s (as ++ bs)) : M.Along P s as := by
  induction as generalizing s with
  | nil => trivial
  | cons b as ih => exact ⟨h.1, fun t ht => ih (h.2 t ht)⟩

theorem exists_of_exec (M : Machine σ α) (as : List α) {P : σ → Prop} [DecidablePred P]
    (he : ((M.exec M.start as).map fun s => decide (P s)) = some true) :
    ∃ s, M.exec M.start as = some s ∧ P s := by
  obtain ⟨s, hs, hP⟩ := Option.map_eq_some_iff.1 he
  exact ⟨s, hs, of_decide_eq_true hP⟩

theorem exists_reach_of_exec (M : Machine σ α) (ok : σ → α → Prop) (as : List α) {P : σ → Prop}
    [DecidablePred P] (has : M.Along ok M.start as)
    (he : ((M.exec M.start as).map fun s => decide (P s)) = some true) :
    ∃ s, M.Reach ok s ∧ P s := by
  obtain ⟨s, hs, hP⟩ := M.exists_of_exec as he
  exact ⟨s, Reach.start.exec has hs, hP⟩

/-- Two step conditions agree along every run if they agree wherever an invariant holds that a
step meeting the first one keeps. -/
theorem along_congr (hI : ∀ {t a u}, I t → V t a → P t a → M.next t a = some u → I u)
    (h : ∀ {t a}, I t → V t a → (P t a ↔ Q t a)) (hs : I s) (hv : M.Along V s as) :
    M.Along P s as ↔ M.Along Q s as := by
  induction as generalizing s with
  | nil => exact Iff.rfl
  | cons a as ih =>
    have ha := h hs hv.1
    constructor
    · rintro ⟨hP, hr⟩
      exact ⟨ha.1 hP, fun t ht => (ih (hI hs hv.1 hP ht) (hv.2 t ht)).1 (hr t ht)⟩
    · rintro ⟨hQ, hr⟩
      exact ⟨ha.2 hQ, fun t ht => (ih (hI hs hv.1 (ha.2 hQ) ht) (hv.2 t ht)).2 (hr t ht)⟩

end Machine
end Cs324
