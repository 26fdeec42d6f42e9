import Cs324.Base.Processes
import Cs324.Shell.Managed
import Cs324.Shell.Reports
import Cs324.Shell.Waiting
import Mathlib.Data.Finset.Card

namespace Cs324.Shell
set_option autoImplicit true

/-- The steps that the shell takes by itself. It takes none of its own while it sleeps in `waitfg`
and the job it waits for is still the one in the foreground. -/
def Inside (s : Sys) : Action → Prop
  | .stmt => ∀ pid, s.pc = .sleep pid → fgpid s.vars.jobs ≠ pid
  | .fork _ | .deliver | .report _ | .handled => True
  | _ => False

/-- The statements from here to the next line, or to a `sleep`. -/
def Pc.work (jobs : JobTable) : Pc → Nat
  | .prompt | .exited | .crashed => 0
  | .waitfg _ | .pidPrint _ _ => 1
  | .sleep pid => if fgpid jobs = pid then 0 else 2
  | .announce _ _ | .jidWait _ | .pidWait _ => 2
  | .unblock _ _ _ | .jidCont _ _ _ | .pidState _ _ _ => 3
  | .addjob _ _ _ | .jidPrint _ _ _ | .pidCont _ _ _ => 4
  | .setpgid _ _ _ | .jidState _ _ _ _ => 5
  | .fork _ _ | .jidPid _ _ _ => 6
  | .block _ _ | .bgfg _ _ => 7
  | .listjobs slot => maxJobs - slot + 1

/-- The children that `waitpid` has something to report about. -/
def Sys.due (s : Sys) : Finset Int :=
  s.children.filter fun pid => (s.status pid).report ≠ none

def Sys.steps (s : Sys) : Nat :=
  s.pc.work s.vars.jobs + 3 * s.due.card + 2 * s.pending.toNat + s.handling.toNat

def Sys.work (s : Sys) : Nat := if s.pc.Live then s.steps + 1 else 0

theorem mem_due {s : Sys} : pid ∈ s.due ↔ pid ∈ s.children ∧ (s.status pid).report ≠ none :=
  Finset.mem_filter

/-- A change of the table can only wake up the shell. -/
theorem work_le (jobs jobs' : JobTable) (pc : Pc) : pc.work jobs' ≤ pc.work jobs + 2 := by
  cases pc with
  | sleep pid =>
    simp only [Pc.work]
    split <;> omega
  | _ => exact Nat.le_add_right _ _

theorem bgfgLookup_work (jobs jobs' : JobTable) (command : Command)
    (argument : Option (List UInt8)) :
    (bgfgLookup jobs command argument).2.work jobs' < (Pc.bgfg command argument).work jobs := by
  have hm := bgfgLookup_moves jobs command argument
  generalize bgfgLookup jobs command argument = found at hm
  obtain ⟨effect, pc⟩ := found
  cases hm with
  | message | byJid | byPid => simp [Pc.work]

theorem stmt_work (h : stmt jobs pc = some (effect, pc'))
    (hawake : ∀ pid, pc = .sleep pid → fgpid jobs ≠ pid)
    (hjobs : effect = .nothing → jobs' = jobs) : pc'.work jobs' < pc.work jobs := by
  cases pc with
  | prompt | fork | exited | crashed => cases h
  | waitfg pid =>
    cases h
    rw [hjobs rfl]
    split
    next hfg => simp [Pc.work, hfg]
    next => simp [Pc.work]
  | sleep pid =>
    cases h
    simp [Pc.work, hawake pid rfl]
  | bgfg command argument =>
    have hlookup := bgfgLookup_work jobs jobs' command argument
    rwa [Option.some.inj h] at hlookup
  | listjobs slot =>
    simp only [stmt] at h
    split at h
    · cases h
      simp only [Pc.work]
      omega
    · cases h
      simp [Pc.work]
  | unblock bg =>
    cases h
    cases bg <;> simp [Pc.work]
  | jidState command | jidCont command | pidState command =>
    cases h
    cases command <;> simp [Pc.work]
  | _ =>
    cases h
    simp [Pc.work]

theorem report_continued (h : ChildStatus.report status = none) :
    status.continued.report = none := by
  cases status with
  | running => rfl
  | stopped sig reported => rfl
  | killed | exited => cases h

theorem perform_due (s : Sys) (effect : Effect) : (s.perform effect).due ⊆ s.due := by
  intro pid hm
  rw [mem_due, perform_children] at hm
  refine mem_due.2 ⟨hm.1, fun hnone => hm.2 ?_⟩
  cases effect with
  | sigcont target =>
    by_cases he : pid = target
    · subst he
      simp only [Sys.perform, Function.update_self, report_continued hnone]
    · simp only [Sys.perform, Function.update_of_ne he, hnone]
  | _ => exact hnone

/-- A turn of the handler leaves the other children as they are. -/
theorem handle_due {s : Sys} (hl : (s.handle pid report).pc.Live) :
    (s.handle pid report).due ⊆ s.due.erase pid := by
  intro p hm
  rcases handle_cases s pid report with ⟨_, _, he⟩ | ⟨_, slot, _, sig, _, he⟩ | ⟨_, _, he⟩
  · rw [he] at hm
    obtain ⟨hp, hr⟩ := mem_due.1 hm
    obtain ⟨hne, hp⟩ := Finset.mem_erase.1 hp
    exact Finset.mem_erase.2 ⟨hne, mem_due.2 ⟨hp, hr⟩⟩
  · rw [he] at hm
    obtain ⟨hp, hr⟩ := mem_due.1 hm
    have hne : p ≠ pid := by
      rintro rfl
      simp [ChildStatus.report] at hr
    refine Finset.mem_erase.2 ⟨hne, mem_due.2 ⟨hp, ?_⟩⟩
    simpa only [Function.update_of_ne hne] using hr
  · rw [he] at hl
    exact absurd rfl hl.2

theorem fork_due {s : Sys} (hf : pid ∉ s.children) (bg : Bool) (cmdline : List UInt8) :
    Sys.due { s with
      pc := .setpgid bg cmdline pid
      children := insert pid s.children
      status := Function.update s.status pid .running
      log := .started pid :: s.log } = s.due := by
  ext p
  rw [mem_due, mem_due, Finset.mem_insert]
  by_cases he : p = pid
  · subst he
    simp [ChildStatus.report, hf]
  · simp only [he, false_or, Function.update_of_ne he]

theorem work_lt {s t : Sys} (hl : s.pc.Live) (h : t.pc.Live → t.steps < s.steps) :
    t.work < s.work := by
  simp only [Sys.work, if_pos hl]
  split
  next hl' => exact Nat.succ_lt_succ (h hl')
  next => exact Nat.succ_pos _

theorem stmt_steps (s : Sys) (hin : Inside s .stmt)
    (h : stmt s.vars.jobs s.pc = some (effect, pc)) :
    Sys.steps { s.perform effect with pc } < s.steps := by
  have hpc := stmt_work h hin fun (he : effect = .nothing) =>
    show (s.perform effect).vars.jobs = s.vars.jobs by rw [he]; rfl
  have hdue := Finset.card_le_card (perform_due s effect)
  change pc.work (s.perform effect).vars.jobs + 3 * (s.perform effect).due.card +
    2 * (s.perform effect).pending.toNat + (s.perform effect).handling.toNat < _
  rw [perform_pending, perform_handling, Sys.steps]
  omega

theorem handle_steps {s : Sys} (hd : pid ∈ s.due) (hl : (s.handle pid report).pc.Live) :
    (s.handle pid report).steps < s.steps := by
  have hpc : (s.handle pid report).pc = s.pc :=
    (handle_pc s pid report).resolve_right hl.2
  have hflags : (s.handle pid report).pending = s.pending ∧
      (s.handle pid report).handling = s.handling := by
    rcases handle_cases s pid report with ⟨_, _, he⟩ | ⟨_, _, _, _, _, he⟩ | ⟨_, _, he⟩ <;>
      exact he ▸ ⟨rfl, rfl⟩
  have hwork := work_le s.vars.jobs (s.handle pid report).vars.jobs s.pc
  have hcard := Finset.card_le_card (handle_due hl)
  have hpos := Finset.card_pos.2 ⟨pid, hd⟩
  rw [Finset.card_erase_of_mem hd] at hcard
  rw [Sys.steps, Sys.steps, hpc, hflags.1, hflags.2]
  omega

/-- Each step of its own leaves the shell fewer of them. -/
theorem work_step {s t : Sys} (hin : Inside s a) (h : s.next a = some t) : t.work < s.work := by
  obtain ⟨hl, -⟩ := next_step h
  refine work_lt hl fun hl' => ?_
  cases a with
  | stmt =>
    obtain ⟨effect, pc, hstmt, rfl⟩ := next_stmt h
    exact stmt_steps s hin hstmt
  | fork pid =>
    rw [Sys.next, if_pos hl] at h
    cases hpc : s.pc with
    | fork bg cmdline =>
      simp only [hpc, Option.ite_none_right_eq_some, Option.some.injEq] at h
      obtain ⟨⟨-, hf⟩, rfl⟩ := h
      rw [Sys.steps, fork_due hf, Sys.steps, hpc]
      simp only [Pc.work]
      omega
    | _ => simp [hpc] at h
  | deliver =>
    rw [Sys.next, if_pos hl] at h
    simp only [Option.ite_none_right_eq_some, Option.some.injEq] at h
    obtain ⟨⟨hp, -, hh⟩, rfl⟩ := h
    have hidle : s.handling = false := by simpa using hh
    simp only [Sys.steps, hp, hidle, Sys.due, Bool.toNat_true, Bool.toNat_false]
    omega
  | report pid =>
    rw [Sys.next, if_pos hl] at h
    simp only [Option.ite_none_right_eq_some, Option.map_eq_some_iff] at h
    obtain ⟨⟨-, hc⟩, report, hr, rfl⟩ := h
    exact handle_steps (mem_due.2 ⟨hc, by simp [hr]⟩) hl'
  | handled =>
    rw [Sys.next, if_pos hl] at h
    simp only [Option.ite_none_right_eq_some, Option.some.injEq] at h
    obtain ⟨⟨hh, -⟩, rfl⟩ := h
    simp only [Sys.steps, hh, Sys.due, Bool.toNat_true, Bool.toNat_false]
    omega
  | _ => exact absurd hin id

/-- A child whose change is not reported yet will be: a `SIGCHLD` is pending or the handler runs. A
stop that is reported is in the log, after the last `SIGCONT`. -/
structure Noticed (s : Sys) : Prop where
  due : ∀ pid ∈ s.due, s.pending = true ∨ s.handling = true
  told : ∀ pid ∈ s.children, ∀ sig, s.status pid = .stopped sig true → ¬Quiet pid s.log

theorem quiet_of_append (outputs : List Output)
    (h : Quiet pid (outputs.map .printed ++ log)) : Quiet pid log := by
  induction outputs with
  | nil => exact h
  | cons _ _ ih => exact ih h

theorem Noticed.become (h : Noticed s) (hnew : ∀ sig, status ≠ .stopped sig true) :
    Noticed (s.become pid status) := by
  refine ⟨fun _ _ => .inl rfl, fun p hp sig hs => ?_⟩
  change Function.update s.status pid status p = .stopped sig true at hs
  by_cases he : p = pid
  · subst he
    rw [Function.update_self] at hs
    exact absurd hs (hnew sig)
  · rw [Function.update_of_ne he] at hs
    exact h.told p hp sig hs

theorem Noticed.stmt (h : Noticed s) (effect : Effect) (pc : Pc) :
    Noticed { s.perform effect with pc } := by
  refine ⟨fun p hp => ?_, fun p hp sig hs hq => ?_⟩
  · change (s.perform effect).pending = true ∨ (s.perform effect).handling = true
    rw [perform_pending, perform_handling]
    exact h.due p (perform_due s effect hp)
  · change p ∈ (s.perform effect).children at hp
    rw [perform_children] at hp
    cases effect with
    | sigcont pid =>
      change Function.update s.status pid (s.status pid).continued p = .stopped sig true at hs
      by_cases he : p = pid
      · subst he
        rw [Function.update_self] at hs
        cases hold : s.status p <;> simp [hold, ChildStatus.continued] at hs
      · rw [Function.update_of_ne he] at hs
        exact h.told p hp sig hs (hq.resolve_left (Ne.symm he))
    | addjob => exact h.told p hp sig hs (quiet_of_append _ hq)
    | _ => exact h.told p hp sig hs hq

theorem Noticed.handle (h : Noticed s) (hh : s.handling = true) (pid : Int) (report : Report) :
    Noticed (s.handle pid report) := by
  rcases handle_cases s pid report with ⟨_, outputs, he⟩ | ⟨_, slot, output, stop, _, he⟩ |
    ⟨_, _, he⟩
  · rw [he]
    refine ⟨fun _ _ => .inr hh, fun p hp sig hs hq => ?_⟩
    exact h.told p (Finset.mem_of_mem_erase hp) sig hs (quiet_of_append outputs hq).2
  · rw [he]
    refine ⟨fun _ _ => .inr hh, fun p hp sig hs hq => ?_⟩
    obtain ⟨hne, hq⟩ := hq
    change Function.update s.status pid (.stopped stop true) p = .stopped sig true at hs
    rw [Function.update_of_ne hne.symm] at hs
    exact h.told p hp sig hs hq
  · rw [he]
    exact ⟨fun _ _ => .inr hh, fun p hp sig hs hq => h.told p hp sig hs hq.2⟩

theorem Noticed.fork (h : Noticed s) (hf : pid ∉ s.children) (bg : Bool) (cmdline : List UInt8) :
    Noticed { s with
      pc := .setpgid bg cmdline pid
      children := insert pid s.children
      status := Function.update s.status pid .running
      log := .started pid :: s.log } := by
  refine ⟨fun p hp => ?_, fun p hp sig hs hq => ?_⟩
  · rw [fork_due hf] at hp
    exact h.due p hp
  · change Function.update s.status pid .running p = .stopped sig true at hs
    by_cases he : p = pid
    · subst he
      rw [Function.update_self] at hs
      cases hs
    · rw [Function.update_of_ne he] at hs
      exact h.told p (Finset.mem_of_mem_insert_of_ne hp he) sig hs
        (hq.resolve_left (Ne.symm he))

theorem Noticed.forward (h : Noticed s) (sig : Int) : Noticed (s.forward sig) := by
  unfold Sys.forward
  dsimp only
  split
  · exact ⟨h.due, h.told⟩
  · exact h

theorem Noticed.step (h : Noticed s) (hn : s.next a = some t) : Noticed t := by
  obtain ⟨hl, -⟩ := next_step hn
  cases a with
  | stmt =>
    obtain ⟨effect, pc, -, rfl⟩ := next_stmt hn
    exact h.stmt effect pc
  | fork pid =>
    rw [Sys.next, if_pos hl] at hn
    cases hpc : s.pc with
    | fork bg cmdline =>
      simp only [hpc, Option.ite_none_right_eq_some, Option.some.injEq] at hn
      obtain ⟨⟨-, hf⟩, rfl⟩ := hn
      exact h.fork hf bg cmdline
    | _ => simp [hpc] at hn
  | report pid =>
    rw [Sys.next, if_pos hl] at hn
    simp only [Option.ite_none_right_eq_some, Option.map_eq_some_iff] at hn
    obtain ⟨⟨hh, -⟩, report, -, rfl⟩ := hn
    exact h.handle hh pid report
  | handled =>
    rw [Sys.next, if_pos hl] at hn
    simp only [Option.ite_none_right_eq_some, Option.some.injEq] at hn
    obtain ⟨⟨-, hnone⟩, rfl⟩ := hn
    exact ⟨fun p hp => absurd (hnone p (mem_due.1 hp).1) (mem_due.1 hp).2, h.told⟩
  | stop pid sig | resume pid | exit pid code | kill pid sig =>
    rw [Sys.next, if_pos hl] at hn
    simp only [Option.ite_none_right_eq_some, Option.some.injEq] at hn
    obtain ⟨-, rfl⟩ := hn
    exact h.become (by simp)
  | sigint | sigtstp =>
    rw [Sys.next, if_pos hl, Option.some.injEq] at hn
    exact hn ▸ h.forward _
  | sigchld =>
    rw [Sys.next, if_pos hl, Option.some.injEq] at hn
    exact hn ▸ ⟨fun _ _ => .inl rfl, h.told⟩
  | sigquit =>
    rw [Sys.next, if_pos hl, Option.some.injEq] at hn
    exact hn ▸ ⟨h.due, h.told⟩
  | line cmdline | eof =>
    rw [Sys.next, if_pos hl] at hn
    simp only [Option.ite_none_right_eq_some, Option.some.injEq] at hn
    obtain ⟨-, rfl⟩ := hn
    exact ⟨h.due, h.told⟩
  | fail =>
    rw [Sys.next, if_pos hl] at hn
    split at hn <;> cases hn <;> exact ⟨h.due, h.told⟩
  | deliver =>
    rw [Sys.next, if_pos hl] at hn
    simp only [Option.ite_none_right_eq_some, Option.some.injEq] at hn
    obtain ⟨-, rfl⟩ := hn
    exact ⟨fun _ _ => .inr rfl, h.told⟩

theorem noticed (h : (shell verbose memory).Reachable s) : Noticed s := by
  apply h.invariant
  · exact ⟨fun _ hp => absurd (mem_due.1 hp).1 (Finset.notMem_empty _), fun _ _ _ => nofun⟩
  · intro t a u _ ht _ hn
    exact ht.step hn

/-- The shell waits for the next line, or for a foreground job that runs; its table says which
children it has, and it has told about each one that is stopped. -/
structure AtRest (s : Sys) : Prop where
  waits : s.pc = .prompt ∨
    ∃ pid, s.pc = .sleep pid ∧ ForegroundJob s.vars.jobs pid ∧ s.status pid = .running
  pending : s.pending = false
  handling : s.handling = false
  table : pids s.vars.jobs = s.children
  told : ∀ pid ∈ s.children, s.status pid = .running ∨ ∃ sig, s.status pid = .stopped sig true

section stuck
variable {s : Sys} (hl : s.pc.Live) (hstuck : ∀ a, Inside s a → s.next a = none)
include hl hstuck

/-- The handler goes on while there is something to report, and then returns. -/
theorem handler_done : s.handling = false := by
  by_contra hh
  have hh' : s.handling = true := by simpa using hh
  by_cases hnone : ∀ pid ∈ s.children, (s.status pid).report = none
  · have hhandled := hstuck .handled trivial
    rw [Sys.next, if_pos hl, if_pos ⟨hh', hnone⟩] at hhandled
    cases hhandled
  · push Not at hnone
    obtain ⟨pid, hp, hr⟩ := hnone
    have hreport := hstuck (.report pid) trivial
    rw [Sys.next, if_pos hl, if_pos ⟨hh', hp⟩, Option.map_eq_none_iff] at hreport
    exact hr hreport

/-- Every statement but a `sleep` can be executed, and `fork` finds a pid. -/
theorem waiting_of_stuck : s.pc = .prompt ∨ ∃ pid, s.pc = .sleep pid ∧ fgpid s.vars.jobs = pid := by
  have hh := handler_done hl hstuck
  have hstmt : (∀ pid, s.pc = .sleep pid → fgpid s.vars.jobs ≠ pid) →
      stmt s.vars.jobs s.pc = none := by
    intro hin
    have hnext := hstuck .stmt hin
    rw [Sys.next, if_pos hl] at hnext
    simpa [hh] using hnext
  cases hpc : s.pc with
  | prompt => exact .inl rfl
  | sleep pid =>
    refine .inr ⟨pid, rfl, ?_⟩
    by_contra hfg
    have hnone := hstmt fun p hp => by
      cases hpc.symm.trans hp
      exact hfg
    rw [hpc] at hnone
    cases hnone
  | exited => exact absurd hpc hl.1
  | crashed => exact absurd hpc hl.2
  | fork bg cmdline =>
    obtain ⟨pid, hpid, hnew⟩ := exists_pid s.children
    have hfork := hstuck (.fork pid) trivial
    rw [Sys.next, if_pos hl] at hfork
    simp only [hpc] at hfork
    rw [if_pos ⟨hpid, hnew⟩] at hfork
    cases hfork
  | listjobs slot =>
    have hnone := hstmt fun p hp => by cases hpc.symm.trans hp
    simp only [hpc, stmt] at hnone
    split at hnone <;> cases hnone
  | _ =>
    have hnone := hstmt fun p hp => by cases hpc.symm.trans hp
    rw [hpc] at hnone
    cases hnone

theorem not_pending (hc : Consistent s) : s.pending = false := by
  by_contra hp
  have hh := handler_done hl hstuck
  have hb : s.blocked = false := by
    rw [hc.masked hl]
    rcases waiting_of_stuck hl hstuck with hpc | ⟨pid, hpc, -⟩ <;> rw [hpc] <;> rfl
  have hdeliver := hstuck .deliver trivial
  rw [Sys.next, if_pos hl] at hdeliver
  simp [hp, hb, hh] at hdeliver

end stuck

theorem running_or_told {s : Sys} (hdue : pid ∉ s.due) (hp : pid ∈ s.children) :
    s.status pid = .running ∨ ∃ sig, s.status pid = .stopped sig true := by
  have hnone : (s.status pid).report = none := by
    by_contra hr
    exact hdue (mem_due.2 ⟨hp, hr⟩)
  cases hs : s.status pid with
  | running => exact .inl rfl
  | stopped sig reported =>
    cases reported with
    | true => exact .inr ⟨sig, rfl⟩
    | false =>
      rw [hs] at hnone
      cases hnone
  | killed | exited =>
    rw [hs] at hnone
    cases hnone

/-- The job that the shell sleeps for has not been reported since it was started or continued. -/
theorem sleeping_for {s : Sys} (hw : Waitable s) (hpc : s.pc = .sleep pid)
    (hfg : fgpid s.vars.jobs = pid) : ∃ i, InFg s.vars.jobs i ∧ Occupied s.vars.jobs i ∧
      (s.vars.jobs i).pid = pid ∧ Quiet (s.vars.jobs i).pid s.log := by
  have hpid := hw.holds
  rw [hpc] at hpid
  change 1 ≤ pid at hpid
  have hl : s.pc.Live := by rw [hpc]; exact ⟨nofun, nofun⟩
  rcases fgpid_cases s.vars.jobs with ⟨i, hi, _, he⟩ | ⟨_, he⟩
  · obtain ⟨ho, hq | ⟨_, hj⟩⟩ := hw.fg hl i hi
    · exact ⟨i, hi, ho, he.symm.trans hfg, hq⟩
    · rw [hpc] at hj
      cases hj
  · omega

/-- The run has no more children than the table has slots, and the handler leaves the job of `fg`
alone. -/
def Orderly (s : Sys) (a : Action) : Prop := Within s a ∧ Undisturbed s a

instance (s : Sys) (a : Action) : Decidable (Orderly s a) :=
  inferInstanceAs (Decidable (_ ∧ _))

theorem atRest_of_stuck (h : (shell verbose memory).Reach Orderly s) (hl : s.pc.Live)
    (hstuck : ∀ a, Inside s a → s.next a = none) : AtRest s := by
  have hc := consistent h.reachable
  have hn := noticed h.reachable
  have hw := waitable (h.mono And.right)
  have hh := handler_done hl hstuck
  have hp := not_pending hl hstuck hc
  have hpc := waiting_of_stuck hl hstuck
  have hmasked : s.pc.masked = false := by
    rcases hpc with hpc | ⟨pid, hpc, -⟩ <;> rw [hpc] <;> rfl
  have hnotdue : ∀ pid, pid ∉ s.due := by
    intro pid hm
    rcases hn.due pid hm with hq | hq
    · rw [hp] at hq
      cases hq
    · rw [hh] at hq
      cases hq
  have hchildren : ∀ pid ∈ s.children,
      s.status pid = .running ∨ ∃ sig, s.status pid = .stopped sig true :=
    fun pid hm => running_or_told (hnotdue pid) hm
  refine ⟨hpc.imp_right ?_, hp, hh, ?_, hchildren⟩
  · rintro ⟨pid, hpc, hfg⟩
    obtain ⟨i, hi, ho, he, hq⟩ := sleeping_for hw hpc hfg
    subst he
    refine ⟨_, hpc, ⟨i, hi, rfl⟩, ?_⟩
    have hm := hc.tracked (mem_pids ho)
    refine (hchildren _ hm).resolve_right ?_
    rintro ⟨sig, hs⟩
    exact hn.told _ hm sig hs hq
  · refine Set.Subset.antisymm hc.tracked fun pid hm => ?_
    have hheld := (complete (h.mono And.left)).held hl pid hm
    rw [Pc.newborn_of_not_masked hmasked] at hheld
    exact hheld.resolve_left nofun

/-- The shell takes only so many steps by itself, and where it has none left it is at rest. -/
theorem shell_comes_to_rest (h : (shell verbose memory).Reach Orderly s) :
    (∀ as t, (shell verbose memory).Along Inside s as →
      (shell verbose memory).exec s as = some t → as.length ≤ s.work) ∧
    ((∀ a, Inside s a → s.next a = none) → s.pc = .exited ∨ AtRest s) := by
  refine ⟨fun as t has he => ?_, fun hstuck => ?_⟩
  · have hlength := Machine.exec_length_le Sys.work (fun hin hn => work_step hin hn) has he
    omega
  · by_cases hexited : s.pc = .exited
    · exact .inl hexited
    · have hcrashed := (complete (h.mono And.left)).alive
      exact .inr (atRest_of_stuck h ⟨hexited, hcrashed⟩ hstuck)

/-- A foreground job that runs, and a background job that has been stopped. -/
def stoppedBehind : List Action :=
  [.line (chars "./myspin 1 &\n"), .stmt, .fork 100, .stmt, .stmt, .stmt, .stmt, .stmt,
    .line (chars "./myspin 2\n"), .stmt, .fork 101, .stop 100 20, .stmt, .stmt, .stmt, .deliver,
    .report 100, .handled, .stmt]

theorem one_stopped_rests : ∃ s : Sys, s.pc = .sleep 101 ∧ s.status 100 = .stopped 20 true ∧
    AtRest s ∧ ∀ as t, (shell false emptyMemory).Along Inside s as →
      (shell false emptyMemory).exec s as = some t → as.length ≤ 1 := by
  obtain ⟨s, hs, hpc, hfg, hh, hp, hstatus, hwork⟩ := Machine.exists_reach_of_exec
    (shell false emptyMemory) Orderly stoppedBehind
    (P := fun s => s.pc = .sleep 101 ∧ fgpid s.vars.jobs = 101 ∧ s.handling = false ∧
      s.pending = false ∧ s.status 100 = .stopped 20 true ∧ s.work = 1)
    (by decide +kernel) (by decide +kernel)
  obtain ⟨hlength, hrest⟩ := shell_comes_to_rest hs
  rw [hwork] at hlength
  have hstuck : ∀ a, Inside s a → s.next a = none := by
    intro a hin
    cases a with
    | stmt => exact absurd hfg (hin 101 hpc)
    | fork | deliver | report | handled => simp [Sys.next, hpc, hh, hp]
    | _ => exact absurd hin id
  have hexited : s.pc ≠ .exited := by
    rw [hpc]
    nofun
  exact ⟨s, hpc, hstatus, (hrest hstuck).resolve_left hexited, hlength⟩

end Cs324.Shell
