import Cs324.Pipeline.Steps
import Cs324.Shell.Groups

namespace Cs324.Pipeline
set_option autoImplicit true

/-- The child that the shell calls `Setpgid` for. -/
def Sys.called (s : Sys) (a : Action) : Option Child :=
  match a, s.pc with
  | .setpgid, .setpgid i => s.children[i]?
  | _, _ => none

/-- If the shell calls `Setpgid`, the child has not performed its exec. -/
def BeforeExec (s : Sys) (a : Action) : Prop :=
  ∀ child ∈ s.called a, s.family.execed child.pid = false

instance (s : Sys) (a : Action) : Decidable (BeforeExec s a) :=
  inferInstanceAs (Decidable (∀ child ∈ s.called a, _))

/-- How many of the children the shell has put in the group. -/
def Pc.grouped (children : Nat) : Pc → Nat
  | .setpgid i => i
  | _ => children

/-- The shell has not begun to wait. -/
def Pc.starting : Pc → Prop
  | .waitpid _ | .returned | .exited => False
  | _ => True

structure Grouped (s : Sys) : Prop where
  live : s.pc ≠ .exited
  positive : ∀ (i : Nat) (child : Child), s.children[i]? = some child → 1 ≤ child.pid
  members : s.pc.starting → ∀ (i : Nat) (child : Child), s.children[i]? = some child →
    child.pid ∈ s.family.members
  group : ∀ (i : Nat) (child first : Child), i < s.pc.grouped s.children.length →
    s.children[i]? = some child → s.children[0]? = some first →
    s.family.group child.pid = first.pid

theorem waitLoop_live (n i k : Nat) : waitLoop n i ≠ .exited ∧ (waitLoop n i).grouped k = k := by
  rw [waitLoop]
  split <;> exact ⟨by simp, rfl⟩

theorem closeLoop_live (n i k : Nat) : closeLoop n i ≠ .exited ∧ (closeLoop n i).grouped k = k := by
  rw [closeLoop]
  split
  · exact ⟨by simp, rfl⟩
  · exact waitLoop_live n 0 k

theorem forkLoop_live (n i k : Nat) : forkLoop n i ≠ .exited ∧ (forkLoop n i).grouped k = k := by
  rw [forkLoop]
  split
  · exact ⟨by simp, rfl⟩
  · exact closeLoop_live n 0 k

theorem pipeLoop_live (n i k : Nat) : pipeLoop n i ≠ .exited ∧ (pipeLoop n i).grouped k = k := by
  rw [pipeLoop]
  split
  · exact ⟨by simp, rfl⟩
  · exact forkLoop_live n 0 k

/-- A child that is still in its own program is put in the group: the group is the child's own if
it is the first one, and else the first one is in it. -/
theorem Grouped.setpgid_ok (h : Grouped s) (hpc : s.pc = .setpgid i)
    (hc : s.children[i]? = some child) (h0 : s.children[0]? = some first)
    (hx : s.family.execed child.pid = false) : s.family.setpgid child.pid first.pid =
      .ok { s.family with group := Function.update s.family.group child.pid first.pid } := by
  have hstarting : s.pc.starting := by
    rw [hpc]
    trivial
  have hpos := h.positive 0 first h0
  apply Family.setpgid_group (h.members hstarting i child hc) hx (by omega)
  rcases Nat.eq_zero_or_pos i with rfl | hi
  · cases hc.symm.trans h0
    exact .inl rfl
  · refine .inr ⟨first.pid, h.members hstarting 0 first h0, h.group 0 first first ?_ h0 h0⟩
    rwa [hpc]

/-- What becomes of a child otherwise does not matter. -/
theorem Grouped.set (h : Grouped s) (hc : s.children[i]? = some child)
    (hpid : child'.pid = child.pid) : Grouped { s with children := s.children.set i child' } := by
  have hold : ∀ (j : Nat) (c : Child), (s.children.set i child')[j]? = some c →
      ∃ c₀ : Child, s.children[j]? = some c₀ ∧ c₀.pid = c.pid := by
    intro j c hj
    rcases getElem?_set_some hj with ⟨rfl, rfl⟩ | hj
    · exact ⟨child, hc, hpid.symm⟩
    · exact ⟨c, hj, rfl⟩
  refine ⟨h.live, ?_, ?_, ?_⟩
  · intro j c hj
    obtain ⟨c₀, hj, he⟩ := hold j c hj
    rw [← he]
    exact h.positive j c₀ hj
  · intro hst j c hj
    obtain ⟨c₀, hj, he⟩ := hold j c hj
    rw [← he]
    exact h.members hst j c₀ hj
  · intro j c first hlt hj h0
    rw [List.length_set] at hlt
    obtain ⟨c₀, hj, he⟩ := hold j c hj
    obtain ⟨first₀, h0, he0⟩ := hold 0 first h0
    rw [← he, ← he0]
    exact h.group j c₀ first₀ hlt hj h0

theorem Grouped.step (h : Grouped s)
    (hcounts : s.pc.Counts (parseargs args).2.length s.pipes.length s.children.length)
    (hok : BeforeExec s a) (hs : Step args own s a t) : Grouped t := by
  have hmembers := h.members
  have hgroup := h.group
  cases hs with
  | @pipe i r w hpc =>
    obtain ⟨hlive, hall⟩ := pipeLoop_live (parseargs args).2.length (i + 1) s.children.length
    rw [hpc] at hmembers hgroup
    exact ⟨hlive, h.positive, fun _ => hmembers trivial, by rwa [hall]⟩
  | @fork i pid hpc hp hf =>
    rw [hpc] at hcounts hmembers hgroup
    obtain ⟨_, _, hnum⟩ := hcounts
    refine ⟨by simp, ?_, ?_, ?_⟩
    · intro j child hc
      rcases getElem?_append_some hc with ⟨-, hc⟩ | ⟨-, rfl⟩
      · exact h.positive j child hc
      · exact hp
    · intro _ j child hc
      rcases getElem?_append_some hc with ⟨-, hc⟩ | ⟨-, rfl⟩
      · exact Finset.mem_insert_of_mem (hmembers trivial j child hc)
      · exact Finset.mem_insert_self _ _
    · intro j child first hj hc h0
      change j < i at hj
      rw [List.getElem?_append_left (by omega)] at hc h0
      have hne : child.pid ≠ pid := by
        rintro rfl
        exact hf (hmembers trivial j child hc)
      change Function.update s.family.group pid own child.pid = first.pid
      rw [Function.update_of_ne hne]
      exact hgroup j child first (hj.trans_le hnum.ge) hc h0
  | @setpgid i child first family hpc hc h0 hs =>
    rw [h.setpgid_ok hpc hc h0 (hok child (by simp [Sys.called, hpc, hc]))] at hs
    cases hs
    obtain ⟨hlive, hall⟩ := forkLoop_live (parseargs args).2.length (i + 1) s.children.length
    rw [hpc] at hcounts hmembers hgroup
    obtain ⟨_, _, hnum⟩ := hcounts
    refine ⟨hlive, h.positive, fun _ => hmembers trivial, ?_⟩
    intro j child' first' hj hc' h0'
    cases h0.symm.trans h0'
    rw [hall] at hj
    by_cases he : child'.pid = child.pid
    · rw [he]
      exact Function.update_self _ _ _
    · have hji : j ≠ i := by
        rintro rfl
        cases hc.symm.trans hc'
        exact he rfl
      change Function.update s.family.group child.pid first.pid child'.pid = first.pid
      rw [Function.update_of_ne he]
      exact hgroup j child' first (by change j < i; omega) hc' h0
  | @fail i child first e hpc hc h0 hs =>
    rw [h.setpgid_ok hpc hc h0 (hok child (by simp [Sys.called, hpc, hc]))] at hs
    cases hs
  | @close i pipe t hpc =>
    obtain ⟨hlive, hall⟩ := closeLoop_live (parseargs args).2.length (i + 1) s.children.length
    rw [hpc] at hmembers hgroup
    exact ⟨hlive, h.positive, fun _ => hmembers trivial, by rwa [hall]⟩
  | @waitpid i child hpc =>
    obtain ⟨hlive, hall⟩ := waitLoop_live (parseargs args).2.length (i + 1) s.children.length
    rw [hpc] at hgroup
    refine ⟨hlive, h.positive, fun hst => ?_, by rwa [hall]⟩
    simp only [waitLoop] at hst
    split at hst <;> exact absurd hst id
  | redirect hc => exact h.set hc rfl
  | execve hc hr => exact ⟨h.live, h.positive, hmembers, hgroup⟩
  | exit hc => exact h.set hc rfl

theorem Grouped.reached (h : (pipeline args opened own).Reach BeforeExec s) : Grouped s := by
  apply h.invariant (I := Grouped)
  · refine ⟨(pipeLoop_live _ _ 0).1, ?_, ?_, ?_⟩ <;> simp [pipeline]
  · intro s a t hr hs hok hn
    exact hs.step (counts_reached hr) hok (next_step hn)

/-- A child that has performed its exec makes the call fail, and the shell exits. -/
theorem late_setpgid_exits (h : Grouped s) (hpc : s.pc = .setpgid i)
    (hc : s.children[i]? = some child) (h0 : s.children[0]? = some first)
    (hx : s.family.execed child.pid = true) :
    Sys.next args own s .setpgid = some { s with pc := .exited } := by
  have hstarting : s.pc.starting := by
    rw [hpc]
    trivial
  have hmember := h.members hstarting i child hc
  simp [Sys.next, hpc, hc, h0, Family.setpgid_execed hmember hx]

/-- In both shells: if each `Setpgid` of the shell comes before the child's exec, none fails, and
when `eval` waits each child is in the group it is to be in, its own or that of the first child. -/
theorem children_put_in_groups (verbose : Bool) (memory : Shell.JobTable)
    (args : List (List UInt8)) (opened : Nat → Bool) (own : Int) :
    (∀ s, (Shell.launcher verbose memory own).Reach Shell.BeforeExec s → s.failed = false ∧
      ∀ pid, s.sys.pc = .waitfg pid → ∀ child ∈ s.sys.children, s.group child = child) ∧
    (∀ s, (pipeline args opened own).Reach BeforeExec s → s.pc ≠ .exited ∧
      ∀ i first, s.pc = .waitpid i → s.children[0]? = some first →
        ∀ child ∈ s.children, s.family.group child.pid = first.pid) := by
  constructor
  · intro s h
    have hg := Shell.Grouped.reached h
    refine ⟨hg.succeeded, fun pid hpc child hc => hg.group ?_ child hc ?_⟩
    · rw [hpc]
      exact ⟨by simp, by simp⟩
    · rw [hpc]
      simp
  · intro s h
    have hg := Grouped.reached h
    refine ⟨hg.live, fun i first hpc h0 child hc => ?_⟩
    obtain ⟨j, hj⟩ := List.mem_iff_getElem?.1 hc
    apply hg.group j child first _ hj h0
    rw [hpc]
    exact (List.getElem?_eq_some_iff.1 hj).1

def emptyTable : Shell.JobTable := fun _ => ⟨0, 0, 0, .undef, []⟩

/-- Each `Setpgid` comes before the child's exec. -/
def promptShell : List Shell.LaunchAction :=
  [.shell (.line (chars "./myspin 1\n")), .shell .stmt, .shell (.fork 100), .shell .stmt,
    .setpgid 100, .execve 100, .shell .stmt, .shell .stmt]

theorem children_put_in_groups_prompt :
    (∃ s : Shell.Launch, s.sys.pc = .waitfg 100 ∧ s.failed = false ∧ s.group 100 = 100) ∧
    ∃ s : Sys, s.pc = .waitpid 0 ∧
      ∀ first, s.children[0]? = some first → ∀ child ∈ s.children,
        s.family.group child.pid = first.pid := by
  constructor
  · obtain ⟨s, hs, hpc, hc⟩ := (Shell.launcher false emptyTable 1).exists_reach_of_exec
      Shell.BeforeExec promptShell (P := fun s => s.sys.pc = .waitfg 100 ∧ 100 ∈ s.sys.children)
      (by decide +kernel) (by decide +kernel)
    obtain ⟨hf, hg⟩ := (children_put_in_groups false emptyTable twoCommands (· < 3) 1).1 s hs
    exact ⟨s, hpc, hf, hg 100 hpc 100 hc⟩
  · obtain ⟨s, hs, hpc⟩ := (pipeline twoCommands (· < 3) 1).exists_reach_of_exec BeforeExec startTwo
      (P := fun s => s.pc = .waitpid 0) (by decide +kernel) (by decide +kernel)
    exact ⟨s, hpc, fun first h0 =>
      ((children_put_in_groups false emptyTable twoCommands (· < 3) 1).2 s hs).2 0 first hpc h0⟩

/-- The child is ahead of the shell. -/
def promptChild : List Shell.LaunchAction :=
  [.shell (.line (chars "./myspin 1\n")), .shell .stmt, .shell (.fork 100), .setpgid 100,
    .execve 100, .shell .fail]

theorem setpgid_after_exec_fails :
    (∃ s, (Shell.launcher false emptyTable 1).Reachable s ∧ s.failed = true) ∧
    ∃ s, (pipeline [chars "ls"] (· < 3) 1).Reachable s ∧ s.pc = .exited := by
  constructor
  · exact (Shell.launcher false emptyTable 1).exists_reach_of_exec (fun _ _ => True) promptChild
      (Machine.along_true _ _) (by decide +kernel)
  · exact (pipeline [chars "ls"] (· < 3) 1).exists_reach_of_exec (fun _ _ => True)
      [.fork 10, .redirect 0 5 5, .execve 0, .setpgid] (Machine.along_true _ _) (by decide +kernel)

end Cs324.Pipeline
