import Mathlib.Logic.Function.Basic
import Mathlib.Data.List.Nodup

namespace Cs324
set_option autoImplicit true

/-- The open descriptors of a process, and what each one refers to. -/
abbrev Descriptors (φ : Type) := Nat → Option φ

namespace Descriptors
variable {φ : Type} {t u : Descriptors φ}

/-- A call that opens a descriptor returns one that is unused. -/
def install (t : Descriptors φ) (fd : Nat) (file : φ) : Option (Descriptors φ) :=
  match t fd with
  | none => some (Function.update t fd (some file))
  | some _ => none

/-- `dup2`, which fails if the old descriptor is not open. -/
def dup2 (t : Descriptors φ) (oldfd newfd : Nat) : Option (Descriptors φ) :=
  (t oldfd).map fun file => Function.update t newfd (some file)

/-- `close`, which fails if the descriptor is not open. -/
def close (t : Descriptors φ) (fd : Nat) : Option (Descriptors φ) :=
  (t fd).map fun _ => Function.update t fd none

def closeAll (t : Descriptors φ) : List Nat → Option (Descriptors φ)
  | [] => some t
  | fd :: fds => (t.close fd).bind fun t => closeAll t fds

theorem install_unused (h : t fd = none) (file : φ) :
    t.install fd file = some (Function.update t fd (some file)) := by
  rw [install, h]

theorem install_eq_some :
    t.install fd file = some u ↔ t fd = none ∧ u = Function.update t fd (some file) := by
  rw [install]
  split <;> simp_all [eq_comm]

theorem dup2_open (h : t oldfd = some file) (newfd : Nat) :
    t.dup2 oldfd newfd = some (Function.update t newfd (some file)) := by
  rw [dup2, h, Option.map_some]

theorem close_open (h : t fd = some file) : t.close fd = some (Function.update t fd none) := by
  rw [close, h, Option.map_some]

theorem closeAll_open (hn : fds.Nodup) (ho : ∀ fd ∈ fds, t fd ≠ none) :
    t.closeAll fds = some fun fd => if fd ∈ fds then none else t fd := by
  induction fds generalizing t with
  | nil => simp [closeAll]
  | cons fd fds ih =>
    obtain ⟨hfd, hn⟩ := List.nodup_cons.1 hn
    obtain ⟨file, hfile⟩ := Option.ne_none_iff_exists'.1 (ho fd List.mem_cons_self)
    have hrest : ∀ fd' ∈ fds, Function.update t fd none fd' ≠ none := by
      intro fd' hfd'
      rw [Function.update_of_ne (by rintro rfl; exact hfd hfd')]
      exact ho fd' (List.mem_cons_of_mem _ hfd')
    rw [closeAll, close_open hfile, Option.bind_some, ih hn hrest]
    congr 1
    funext fd'
    by_cases he : fd' = fd
    · subst he
      simp
    · simp [he]

/-- To open a file, put it in the place of another one and close the new descriptor comes to
putting it there. -/
theorem install_dup2_close (h : t fd = none) (hne : fd ≠ newfd) (file : φ) :
    (t.install fd file).bind (fun t => (t.dup2 fd newfd).bind fun t => t.close fd) =
      some (Function.update t newfd (some file)) := by
  have hdup : Function.update t fd (some file) fd = some file := Function.update_self _ _ _
  have hclose : Function.update (Function.update t fd (some file)) newfd (some file) fd =
      some file := by
    rw [Function.update_of_ne hne, hdup]
  rw [install_unused h, Option.bind_some, dup2_open hdup, Option.bind_some, close_open hclose,
    Function.update_comm hne, Function.update_idem]
  congr 1
  rw [← h, Function.update_comm hne.symm, Function.update_eq_self]

/-- The open descriptors are those that `R` says who uses, each as it says. -/
def Describes (t : Descriptors φ) (R : Nat → φ → Prop) : Prop :=
  ∀ fd file, t fd = some file ↔ R fd file

theorem Describes.congr (h : t.Describes R) (hR : ∀ fd file, R' fd file ↔ R fd file) :
    t.Describes R' :=
  fun fd file => (h fd file).trans (hR fd file).symm

theorem Describes.install (h : t.Describes R) (hu : t newfd = none)
    (hR : ∀ fd file', R' fd file' ↔ R fd file' ∨ fd = newfd ∧ file' = file) :
    Describes (Function.update t newfd (some file)) R' := by
  intro fd file'
  rw [hR, ← h fd file']
  by_cases he : fd = newfd
  · subst he
    simp [hu, eq_comm]
  · simp [he]

theorem Describes.close (h : t.Describes R)
    (hR : ∀ fd file, R' fd file ↔ R fd file ∧ fd ≠ oldfd) :
    Describes (Function.update t oldfd none) R' := by
  intro fd file
  rw [hR, ← h fd file]
  by_cases he : fd = oldfd
  · simp [he]
  · simp [he]

end Descriptors
end Cs324
