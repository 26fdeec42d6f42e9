import Mathlib.Algebra.Order.Ring.Int
import Mathlib.Data.Finset.Erase
import Mathlib.Data.Finset.Insert
import Mathlib.Logic.Function.Basic
import Mathlib.Order.Interval.Set.Infinite

namespace Cs324
set_option autoImplicit true

/-- The children of a process that it has not waited for: the group that each is in, and whether it
has performed an exec. -/
structure Family where
  members : Finset Int
  group : Int → Int
  execed : Int → Bool

/-- There is always a pid that `fork` can return. -/
theorem exists_pid (children : Finset Int) : ∃ pid, 1 ≤ pid ∧ pid ∉ children :=
  (Set.Ici_infinite (1 : Int)).exists_notMem_finset children

inductive Errno
  | eacces
  | eperm
  | esrch

namespace Family

/-- A child starts in the group of its parent. -/
def fork (f : Family) (pid own : Int) : Family where
  members := insert pid f.members
  group := Function.update f.group pid own
  execed := Function.update f.execed pid false

def exec (f : Family) (pid : Int) : Family :=
  { f with execed := Function.update f.execed pid true }

/-- A child has called `setpgid` for itself, to be in a group of its own. -/
def leadGroup (f : Family) (pid : Int) : Family :=
  { f with group := Function.update f.group pid pid }

/-- The parent calls `setpgid` for a child. -/
def setpgid (f : Family) (pid pgid : Int) : Except Errno Family :=
  let pgid := if pgid = 0 then pid else pgid
  if pid ∉ f.members then .error .esrch
  else if f.execed pid then .error .eacces
  else if pgid = pid ∨ ∃ member ∈ f.members, f.group member = pgid then
    .ok { f with group := Function.update f.group pid pgid }
  else .error .eperm

theorem setpgid_own {f : Family} (hm : pid ∈ f.members) (hx : f.execed pid = false) :
    f.setpgid pid 0 = .ok (f.leadGroup pid) := by
  simp [setpgid, hm, hx, leadGroup]

theorem setpgid_group {f : Family} (hm : pid ∈ f.members) (hx : f.execed pid = false)
    (h0 : pgid ≠ 0) (hg : pgid = pid ∨ ∃ member ∈ f.members, f.group member = pgid) :
    f.setpgid pid pgid = .ok { f with group := Function.update f.group pid pgid } := by
  simp [setpgid, hm, hx, h0, hg]

theorem setpgid_execed {f : Family} (hm : pid ∈ f.members) (hx : f.execed pid = true) :
    f.setpgid pid pgid = .error .eacces := by
  simp [setpgid, hm, hx]

end Family
end Cs324
