import Cs324.Base.Processes
import Cs324.Shell.Children

namespace Cs324.Shell
set_option autoImplicit true

/-- The shell, and how far each child has come: whether it has called `Setpgid` for itself, which
group it is in, and whether it has performed its exec. `failed` is set when a `Setpgid` of the shell
has failed. -/
structure Launch where
  sys : Sys
  led : Int → Bool
  group : Int → Int
  execed : Int → Bool
  failed : Bool

def Launch.family (s : Launch) : Family := ⟨s.sys.children, s.group, s.execed⟩

/-- The shell's own steps and those of a child up to its exec. -/
inductive LaunchAction
  | shell (a : Action)
  | setpgid (pid : Int)
  | execve (pid : Int)
  deriving DecidableEq

/-- The call that the shell makes in `eval` decides whether its next step is the next statement or
the end in `unix_error`. -/
def Launch.next (own : Int) (s : Launch) : LaunchAction → Option Launch
  | .shell a =>
    match a, s.sys.pc with
    | .fork pid, _ =>
      (s.sys.next (.fork pid)).map fun sys => { s with
        sys
        led := Function.update s.led pid false
        group := Function.update s.group pid own
        execed := Function.update s.execed pid false }
    | .stmt, .setpgid _ _ cpid =>
      match s.family.setpgid cpid 0 with
      | .ok family => (s.sys.next .stmt).map fun sys => { s with sys, group := family.group }
      | .error _ => none
    | .fail, .setpgid _ _ cpid =>
      match s.family.setpgid cpid 0 with
      | .ok _ => none
      | .error _ => (s.sys.next .fail).map fun sys => { s with sys, failed := true }
    | a, _ => (s.sys.next a).map fun sys => { s with sys }
  | .setpgid pid =>
    if pid ∈ s.sys.children ∧ s.sys.status pid = .running ∧ !s.led pid then
      some { s with
        led := Function.update s.led pid true
        group := Function.update s.group pid pid }
    else none
  | .execve pid =>
    if pid ∈ s.sys.children ∧ s.sys.status pid = .running ∧ s.led pid ∧ !s.execed pid then
      some { s with execed := Function.update s.execed pid true }
    else none

/-- The shell of the process group `own`. -/
def launcher (verbose : Bool) (memory : JobTable) (own : Int) : Machine Launch LaunchAction where
  start := ⟨(shell verbose memory).start, fun _ => false, fun _ => own, fun _ => false, false⟩
  next := Launch.next own

/-- The child that the shell calls `Setpgid` for. -/
def Launch.called (s : Launch) (a : LaunchAction) : Option Int :=
  match a, s.sys.pc with
  | .shell .stmt, .setpgid _ _ cpid | .shell .fail, .setpgid _ _ cpid => some cpid
  | _, _ => none

/-- If the shell calls `Setpgid`, the child has not performed its exec. -/
def BeforeExec (s : Launch) (a : LaunchAction) : Prop := ∀ cpid ∈ s.called a, s.execed cpid = false

instance (s : Launch) (a : LaunchAction) : Decidable (BeforeExec s a) :=
  inferInstanceAs (Decidable (∀ cpid ∈ s.called a, _))

inductive LaunchStep (own : Int) (s : Launch) : LaunchAction → Launch → Prop
  | fork (h : s.sys.next (.fork pid) = some sys) : LaunchStep own s (.shell (.fork pid)) { s with
      sys
      led := Function.update s.led pid false
      group := Function.update s.group pid own
      execed := Function.update s.execed pid false }
  | setpgid (hpc : s.sys.pc = .setpgid bg cmdline cpid)
      (hs : s.family.setpgid cpid 0 = .ok family) (h : s.sys.next .stmt = some sys) :
      LaunchStep own s (.shell .stmt) { s with sys, group := family.group }
  | fail (hpc : s.sys.pc = .setpgid bg cmdline cpid)
      (hs : s.family.setpgid cpid 0 = .error e) (h : s.sys.next .fail = some sys) :
      LaunchStep own s (.shell .fail) { s with sys, failed := true }
  | other (hf : ∀ pid, a ≠ .fork pid)
      (hpc : a = .stmt → ∀ bg cmdline cpid, s.sys.pc ≠ .setpgid bg cmdline cpid)
      (h : s.sys.next a = some sys) : LaunchStep own s (.shell a) { s with sys }
  | lead (pid : Int) : LaunchStep own s (.setpgid pid) { s with
      led := Function.update s.led pid true
      group := Function.update s.group pid pid }
  | execve (pid : Int) : LaunchStep own s (.execve pid) { s with
      execed := Function.update s.execed pid true }

theorem launch_step (h : Launch.next own s a = some t) : LaunchStep own s a t := by
  unfold Launch.next at h
  split at h
  next a =>
    split at h
    next =>
      obtain ⟨sys, hn, rfl⟩ := Option.map_eq_some_iff.1 h
      exact .fork hn
    next hpc =>
      split at h
      next hs =>
        obtain ⟨sys, hn, rfl⟩ := Option.map_eq_some_iff.1 h
        exact .setpgid hpc hs hn
      next => cases h
    next hpc =>
      split at h
      next => cases h
      next hs =>
        obtain ⟨sys, hn, rfl⟩ := Option.map_eq_some_iff.1 h
        exact .fail hpc hs hn
    next hf hpc _ =>
      obtain ⟨sys, hn, rfl⟩ := Option.map_eq_some_iff.1 h
      exact .other (fun pid he => hf pid he) (fun he bg cmdline cpid => hpc bg cmdline cpid he) hn
  next pid =>
    simp only [Option.ite_none_right_eq_some, Option.some.injEq] at h
    obtain ⟨_, rfl⟩ := h
    exact .lead pid
  next pid =>
    simp only [Option.ite_none_right_eq_some, Option.some.injEq] at h
    obtain ⟨_, rfl⟩ := h
    exact .execve pid

/-- The steps of the launcher are steps of the shell, or leave it alone. -/
theorem LaunchStep.sys_next (h : LaunchStep own s a t) :
    (∃ b, s.sys.next b = some t.sys) ∨ t.sys = s.sys := by
  cases h with
  | fork h | setpgid _ _ h | fail _ _ h | other _ _ h => exact .inl ⟨_, h⟩
  | lead | execve => exact .inr rfl

theorem sys_reached (h : (launcher verbose memory own).Reach ok s) :
    (shell verbose memory).Reachable s.sys := by
  apply h.invariant (I := fun s : Launch => (shell verbose memory).Reachable s.sys)
  · exact .start
  · intro s a t _ hs _ hn
    rcases (launch_step hn).sys_next with ⟨b, hb⟩ | he
    · exact hs.step trivial hb
    · rwa [he]

structure Grouped (s : Launch) : Prop where
  succeeded : s.failed = false
  group : s.sys.pc.Live → ∀ pid ∈ s.sys.children,
    (∀ bg cmdline, s.sys.pc ≠ .setpgid bg cmdline pid) → s.group pid = pid

theorem Sys.forward_children (s : Sys) (sig : Int) :
    (s.forward sig).children = s.children ∧ (s.forward sig).pc = s.pc := by
  unfold Sys.forward
  dsimp only
  split <;> exact ⟨rfl, rfl⟩

theorem children_of_step (h : Step s a t) (hf : ∀ pid, a ≠ .fork pid) :
    t.children ⊆ s.children := by
  cases h with
  | fork => exact absurd rfl (hf _)
  | @stmt effect pc hh hm =>
    change (s.perform effect).children ⊆ s.children
    rw [perform_children]
  | @report pid report hh hc hr =>
    rcases handle_cases s pid report with ⟨_, _, he⟩ | ⟨_, _, _, _, _, he⟩ | ⟨_, _, he⟩
    · rw [he]
      exact Finset.erase_subset _ _
    · rw [he]
    · rw [he]
  | sigint | sigtstp => rw [(s.forward_children _).1]
  | _ => exact Finset.Subset.refl _

/-- Only the call itself takes the shell past it. -/
theorem setpgid_stays (h : Step s a t) (hpc : s.pc = .setpgid bg cmdline cpid) (ha : a ≠ .stmt)
    (hl : t.pc.Live) : t.pc = s.pc := by
  cases h with
  | stmt => exact absurd rfl ha
  | line hpc' | eof hpc' | fork hpc' => cases hpc.symm.trans hpc'
  | fail | sigquit => exact absurd rfl hl.1
  | report => exact (handle_pc s _ _).resolve_right hl.2
  | sigint | sigtstp => exact (s.forward_children _).2
  | _ => rfl

theorem next_fork {s t : Sys} (h : s.next (.fork pid) = some t) :
    ∃ bg cmdline, s.pc = .fork bg cmdline ∧ t.pc = .setpgid bg cmdline pid ∧
      t.children = insert pid s.children := by
  simp only [Sys.next, Option.ite_none_right_eq_some] at h
  obtain ⟨_, h⟩ := h
  split at h
  next bg cmdline hpc =>
    simp only [Option.ite_none_right_eq_some, Option.some.injEq] at h
    obtain ⟨_, rfl⟩ := h
    exact ⟨bg, cmdline, hpc, rfl, rfl⟩
  next => cases h

theorem Grouped.step (h : Grouped s) (hc : Consistent s.sys) (hok : BeforeExec s a)
    (hs : LaunchStep own s a t) : Grouped t := by
  cases hs with
  | @fork pid sys hn =>
    obtain ⟨hl, _⟩ := next_step hn
    obtain ⟨bg, cmdline, hpc, hpc', hchildren⟩ := next_fork hn
    refine ⟨h.succeeded, fun _ p hp hne => ?_⟩
    have hne' : p ≠ pid := by
      rintro rfl
      exact hne bg cmdline hpc'
    change p ∈ sys.children at hp
    rw [hchildren] at hp
    change Function.update s.group pid own p = p
    rw [Function.update_of_ne hne']
    apply h.group hl p ((Finset.mem_insert.1 hp).resolve_left hne')
    rw [hpc]
    simp
  | @setpgid bg cmdline cpid family sys hpc hs hn =>
    obtain ⟨hl, hs'⟩ := next_step hn
    have hx := hok cpid (by simp [Launch.called, hpc])
    have hm := (hc.newborn cpid (by rw [hpc]; rfl)).1
    rw [Family.setpgid_own hm hx] at hs
    cases hs
    refine ⟨h.succeeded, fun hl' p hp hne => ?_⟩
    change Function.update s.group cpid cpid p = p
    by_cases he : p = cpid
    · subst he
      exact Function.update_self _ _ _
    · rw [Function.update_of_ne he]
      apply h.group hl p (children_of_step hs' (by simp) hp)
      rw [hpc]
      simp [Ne.symm he]
  | @fail bg cmdline cpid e sys hpc hs hn =>
    have hx := hok cpid (by simp [Launch.called, hpc])
    have hm := (hc.newborn cpid (by rw [hpc]; rfl)).1
    rw [Family.setpgid_own hm hx] at hs
    cases hs
  | @other a sys hf hpc hn =>
    obtain ⟨hl, hs⟩ := next_step hn
    refine ⟨h.succeeded, fun hl' p hp hne => ?_⟩
    apply h.group hl p (children_of_step hs hf hp)
    intro bg cmdline he
    have hne' : a ≠ .stmt := fun ha => hpc ha bg cmdline p he
    exact hne bg cmdline ((setpgid_stays hs he hne' hl').trans he)
  | lead pid =>
    refine ⟨h.succeeded, fun hl p hp hne => ?_⟩
    change Function.update s.group pid pid p = p
    by_cases he : p = pid
    · subst he
      exact Function.update_self _ _ _
    · rw [Function.update_of_ne he]
      exact h.group hl p hp hne
  | execve => exact ⟨h.succeeded, h.group⟩

theorem Grouped.reached (h : (launcher verbose memory own).Reach BeforeExec s) : Grouped s := by
  apply h.invariant (I := Grouped)
  · exact ⟨rfl, fun _ pid hp => absurd hp (Finset.notMem_empty pid)⟩
  · intro s a t hr hs hok hn
    exact hs.step (consistent (sys_reached hr)) hok (launch_step hn)

/-- A child that has performed its exec makes the call fail, and the shell exits. -/
theorem late_setpgid_exits (h : (launcher verbose memory own).Reachable s) (hl : s.sys.pc.Live)
    (hpc : s.sys.pc = .setpgid bg cmdline cpid) (hx : s.execed cpid = true) :
    Launch.next own s (.shell .stmt) = none ∧
      Launch.next own s (.shell .fail) =
        some { s with sys.pc := .exited, failed := true } := by
  have hm := ((consistent (sys_reached h)).newborn cpid (by rw [hpc]; rfl)).1
  have hs : s.family.setpgid cpid 0 = .error .eacces := Family.setpgid_execed hm hx
  constructor
  · simp only [Launch.next, hpc, hs]
  · rw [hpc] at hl
    simp only [Launch.next, hpc, hs, Sys.next, if_pos hl, Option.map_some]

end Cs324.Shell
