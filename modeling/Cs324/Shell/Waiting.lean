import Cs324.Shell.Children
import Cs324.Shell.Foreground
import Cs324.Shell.JobNumbers

namespace Cs324.Shell
set_option autoImplicit true

/-- `waitpid` has not reported the child since the shell last started it or sent it `SIGCONT`. -/
def Quiet (pid : Int) : List Event → Prop
  | [] => False
  | .started p :: log | .continued p :: log => p = pid ∨ Quiet pid log
  | .reported p _ :: log => p ≠ pid ∧ Quiet pid log
  | .signalled _ _ :: log | .printed _ :: log => Quiet pid log

def decideQuiet (pid : Int) : ∀ log, Decidable (Quiet pid log)
  | [] => .isFalse id
  | .started p :: log | .continued p :: log =>
    have := decideQuiet pid log
    inferInstanceAs (Decidable (p = pid ∨ Quiet pid log))
  | .reported p _ :: log =>
    have := decideQuiet pid log
    inferInstanceAs (Decidable (p ≠ pid ∧ Quiet pid log))
  | .signalled _ _ :: log | .printed _ :: log => decideQuiet pid log

/-- The slot that `fg` holds on to, from the lookup until it passes `job->pid` to `waitfg`. -/
def Pc.held : Pc → Option (Fin maxJobs)
  | .jidPid .fg _ slot | .jidState .fg _ slot _ | .jidCont .fg slot _ | .jidWait slot
  | .pidCont .fg slot _ | .pidState .fg slot _ | .pidWait slot => some slot
  | _ => none

/-- `fg pid` has sent `SIGCONT` and is about to change the state of the job. -/
def Pc.restates : Pc → Bool
  | .pidState .fg _ _ => true
  | _ => false

instance (pid : Int) (log : List Event) : Decidable (Quiet pid log) :=
  decideQuiet pid log

/-- While `fg` holds on to a slot, no turn of the handler reports that the process in it has
ended, nor, between the `SIGCONT` and the change of state of `fg pid`, that it has stopped. -/
def Undisturbed (s : Sys) : Action → Prop
  | .report pid => ∀ slot, s.pc.held = some slot → (s.vars.jobs slot).pid = pid →
    ¬(s.status pid).Ended ∧ s.pc.restates = false
  | _ => True

instance (s : Sys) : (a : Action) → Decidable (Undisturbed s a)
  | .report pid => inferInstanceAs (Decidable (∀ slot, s.pc.held = some slot →
      (s.vars.jobs slot).pid = pid → ¬(s.status pid).Ended ∧ s.pc.restates = false))
  | .line _ | .eof | .stmt | .fork _ | .fail | .deliver | .handled | .sigint | .sigtstp | .sigquit
  | .stop _ _ | .resume _ | .exit _ _ | .kill _ _ | .sigchld => .isTrue trivial

/-- What `fg` and `eval` rely on at each statement, given the table and the log. -/
def Pc.Holds (jobs : JobTable) (log : List Event) : Pc → Prop
  | .setpgid _ _ pid | .addjob _ _ pid => Quiet pid log
  | .unblock _ _ pid | .announce _ pid | .waitfg pid | .sleep pid => 1 ≤ pid
  | .jidPid .fg _ slot | .jidWait slot | .pidWait slot => Occupied jobs slot
  | .jidState .fg _ slot pid | .jidCont .fg slot pid | .pidCont .fg slot pid =>
    Occupied jobs slot ∧ (jobs slot).pid = pid
  | .pidState .fg slot pid => Occupied jobs slot ∧ (jobs slot).pid = pid ∧ Quiet pid log
  | _ => True

/-- Every slot in state `FG` holds a job that has not been reported, except between the change of
state and the `SIGCONT` of `fg %jid`. -/
structure Waitable (s : Sys) : Prop where
  cleared : Cleared s.vars.jobs
  fg : s.pc.Live → ∀ i, InFg s.vars.jobs i → Occupied s.vars.jobs i ∧
    (Quiet (s.vars.jobs i).pid s.log ∨ ∃ pid, s.pc = .jidCont .fg i pid)
  holds : s.pc.Holds s.vars.jobs s.log

theorem quiet_append (outputs : List Output) (h : Quiet pid log) :
    Quiet pid (outputs.map .printed ++ log) := by
  induction outputs with
  | nil => exact h
  | cons _ _ ih => exact ih

theorem Cleared.setState (h : Cleared jobs) : Cleared (setState jobs slot state) := by
  intro i hn
  simp only [Occupied, setState_pid] at hn
  rw [setState_jid]
  exact h i hn

theorem handle_fg_ne {s : Sys} (hd : Distinct s.vars.jobs) (hp : 1 ≤ pid)
    (hi : InFg (s.handle pid report).vars.jobs i) (hl : (s.handle pid report).pc ≠ .crashed) :
    (s.vars.jobs i).pid ≠ pid := by
  intro he
  have hg : getjobpid s.vars.jobs pid = some i := by
    rw [← he] at hp ⊢
    exact hd.getjobpid hp
  rcases handle_cases s pid report with ⟨_, _, hh⟩ | ⟨_, slot, _, _, hs, hh⟩ | ⟨_, _, hh⟩
  · rw [hh] at hi
    unfold deletejob at hi
    rw [show firstWith Job.pid s.vars.jobs pid = some i from hg] at hi
    simp [InFg, clearjob] at hi
  · rw [hg] at hs
    cases hs
    rw [hh] at hi
    simp [InFg, setState_state] at hi
  · rw [hh] at hl
    exact hl rfl

/-- A report that does not end the process in a slot leaves that slot its pid. -/
theorem handle_keeps {s : Sys} (hr : report.Ended → (s.vars.jobs slot).pid ≠ pid) :
    ((s.handle pid report).vars.jobs slot).pid = (s.vars.jobs slot).pid := by
  rcases handle_cases s pid report with ⟨hend, _, he⟩ | ⟨_, _, _, _, _, he⟩ | ⟨_, _, he⟩
  · rw [he]
    rcases deletejob_cases s.vars pid with ⟨hh, _⟩ | ⟨i, _, hi, _, hh⟩
    · rw [hh]
    · rw [hh]
      have hne : slot ≠ i := fun h => hr hend (h ▸ hi)
      simp only [Function.update_of_ne hne]
  · rw [he]
    exact setState_pid _ _ _ _
  · rw [he]

theorem quiet_handle {s : Sys} (report : Report) (hne : p ≠ pid) (h : Quiet p s.log) :
    Quiet p (s.handle pid report).log := by
  rcases handle_cases s pid report with ⟨_, _, he⟩ | ⟨_, _, _, _, _, he⟩ | ⟨_, _, he⟩
  · rw [he]
    exact quiet_append _ ⟨hne.symm, h⟩
  · rw [he]
    exact ⟨hne.symm, h⟩
  · rw [he]
    exact ⟨hne.symm, h⟩

theorem Cleared.handle {s : Sys} (h : Cleared s.vars.jobs) (pid : Int) (report : Report) :
    Cleared (s.handle pid report).vars.jobs := by
  rcases handle_cases s pid report with ⟨_, _, he⟩ | ⟨_, _, _, _, _, he⟩ | ⟨_, _, he⟩
  · rw [he]
    exact h.apply (.deletejob pid)
  · rw [he]
    exact h.setState
  · rw [he]
    exact h

/-- What a statement relies on survives a change of the table that leaves the held slot its
pid. -/
theorem Pc.Holds.congr (h : Pc.Holds jobs log pc) (hm : pc.masked = false)
    (hslot : ∀ slot, pc.held = some slot → (jobs' slot).pid = (jobs slot).pid)
    (hq : ∀ slot, pc.held = some slot → pc.restates = true → Quiet (jobs slot).pid log →
      Quiet (jobs slot).pid log') : pc.Holds jobs' log' := by
  have hocc : ∀ slot, pc.held = some slot → Occupied jobs slot → Occupied jobs' slot :=
    fun slot he ho => by rwa [Occupied, hslot slot he]
  cases pc with
  | setpgid | addjob => cases hm
  | jidPid command =>
    cases command
    · exact hocc _ rfl h
    · trivial
  | jidWait | pidWait => exact hocc _ rfl h
  | jidState command | jidCont command | pidCont command =>
    cases command
    · exact ⟨hocc _ rfl h.1, (hslot _ rfl).trans h.2⟩
    · trivial
  | pidState command slot pid =>
    cases command
    · obtain ⟨ho, rfl, hl⟩ := h
      exact ⟨hocc _ rfl ho, hslot _ rfl, hq _ rfl rfl hl⟩
    · trivial
  | _ => exact h

theorem Pc.Holds.mono (h : Pc.Holds jobs log pc) (hlog : ∀ pid, Quiet pid log → Quiet pid log') :
    pc.Holds jobs log' := by
  cases pc with
  | setpgid | addjob => exact hlog _ h
  | jidPid command | jidState command | jidCont command | pidCont command =>
    cases command <;> exact h
  | pidState command =>
    cases command
    · exact ⟨h.1, h.2.1, hlog _ h.2.2⟩
    · trivial
  | _ => exact h

theorem Waitable.handle (h : Waitable s) (hc : Consistent s) (hl : s.pc.Live)
    (hh : s.handling = true) (hp : pid ∈ s.children) (hr : (s.status pid).report = some report)
    (hu : Undisturbed s (.report pid)) : Waitable (s.handle pid report) := by
  rcases handle_pc s pid report with hpc | hpc
  · refine ⟨h.cleared.handle pid report, fun _ i hi => ?_, ?_⟩
    · obtain ⟨hi', he⟩ := fgFrom_handle s pid report i hi
      have hne := handle_fg_ne hc.distinct (hc.positive pid hp) hi (hpc ▸ hl.2)
      obtain ⟨ho, hq⟩ := h.fg hl i hi'
      rw [he, hpc]
      exact ⟨by rwa [Occupied, he], hq.imp_left (quiet_handle report hne)⟩
    · rw [hpc]
      apply h.holds.congr ((hc.masked hl).symm.trans (hc.unmasked hh))
      · intro slot hs
        exact handle_keeps fun hend he => (hu slot hs he).1 ((ended_of_report hr).2 hend)
      · intro slot hs hre
        exact quiet_handle report fun he => absurd hre (by simp [(hu slot hs he).2])
  · refine ⟨h.cleared.handle pid report, fun hl' => absurd hpc hl'.2, ?_⟩
    rw [hpc]
    trivial

theorem Waitable.moved (h : Waitable s) (hl : s.pc.Live)
    (hne : ∀ i pid, s.pc ≠ .jidCont .fg i pid) (hjobs : t.vars.jobs = s.vars.jobs)
    (hlog : ∀ pid, Quiet pid s.log → Quiet pid t.log) (hpc : t.pc.Holds s.vars.jobs t.log) :
    Waitable t := by
  refine ⟨hjobs ▸ h.cleared, fun _ i hi => ?_, by rwa [hjobs]⟩
  rw [hjobs] at hi ⊢
  obtain ⟨ho, hq | ⟨pid, he⟩⟩ := h.fg hl i hi
  · exact ⟨ho, .inl (hlog _ hq)⟩
  · exact absurd he (hne i pid)

theorem Waitable.restated (h : Waitable s) (hl : s.pc.Live)
    (hne : ∀ i pid, s.pc ≠ .jidCont .fg i pid)
    (hslot : state = .fg → Occupied s.vars.jobs slot ∧
      (Quiet (s.vars.jobs slot).pid s.log ∨ ∃ pid, pc = .jidCont .fg slot pid))
    (hpc : pc.Holds (Shell.setState s.vars.jobs slot state) s.log) :
    Waitable { s with vars.jobs := Shell.setState s.vars.jobs slot state, pc } := by
  refine ⟨h.cleared.setState, fun _ i hi => ?_, hpc⟩
  simp only [Occupied, setState_pid]
  change (Shell.setState s.vars.jobs slot state i).state = .fg at hi
  rw [setState_state] at hi
  split at hi
  · rename_i he
    subst he
    exact hslot hi
  · obtain ⟨ho, hq | ⟨pid, he⟩⟩ := h.fg hl i hi
    · exact ⟨ho, .inl hq⟩
    · exact absurd he (hne i pid)

theorem Waitable.added (h : Waitable s) (hc : Consistent s) (hl : s.pc.Live)
    (hpc : s.pc = .addjob bg cmdline pid) : Waitable { s.perform
      (.addjob pid 0 (if bg then .bg else .fg) cmdline) with pc := .unblock bg cmdline pid } := by
  have hold := h.holds
  have hpos : 1 ≤ pid := hc.positive pid (hc.newborn pid (by rw [hpc]; rfl)).1
  rw [hpc] at hold
  refine ⟨h.cleared.apply (.addjob pid 0 _ cmdline), fun _ i hi => ?_, hpos⟩
  have hlog : ∀ p, Quiet p s.log → Quiet p (s.perform
      (.addjob pid 0 (if bg then .bg else .fg) cmdline)).log := fun _ => quiet_append _
  change InFg (addjob s.vars pid 0 _ cmdline).2.1.jobs i at hi
  change Occupied (addjob s.vars pid 0 _ cmdline).2.1.jobs i ∧
    (Quiet ((addjob s.vars pid 0 _ cmdline).2.1.jobs i).pid _ ∨ _)
  obtain ⟨_, he, _⟩ | ⟨k, _, _, _, _, he⟩ :=
    addjob_cases s.vars pid 0 (if bg then .bg else .fg) cmdline
  · rw [he] at hi ⊢
    obtain ⟨ho, hq | ⟨_, he⟩⟩ := h.fg hl i hi
    · exact ⟨ho, .inl (hlog _ hq)⟩
    · rw [hpc] at he
      cases he
  · rw [he] at hi ⊢
    by_cases hik : i = k
    · subst hik
      simp only [Occupied, Function.update_self]
      exact ⟨by omega, .inl (hlog _ hold)⟩
    · simp only [InFg, Occupied, Function.update_of_ne hik] at hi ⊢
      obtain ⟨ho, hq | ⟨_, he⟩⟩ := h.fg hl i hi
      · exact ⟨ho, .inl (hlog _ hq)⟩
      · rw [hpc] at he
        cases he

theorem Waitable.stmt (h : Waitable s) (hc : Consistent s) (hl : s.pc.Live)
    (hm : Moves s.vars.jobs s.pc effect pc) : Waitable { s.perform effect with pc } := by
  have hpos : ∀ slot, Occupied s.vars.jobs slot → 1 ≤ (s.vars.jobs slot).pid :=
    fun slot ho => hc.positive _ (hc.tracked (mem_pids ho))
  have hmoved := fun {t} => h.moved (t := t) hl
  have hrestated := fun {state slot pc} => @Waitable.restated _ slot state pc h hl
  have hold := h.holds
  generalize hpc : s.pc = pc₀ at hm hold hmoved hrestated
  cases hm with
  | addjob => exact h.added hc hl hpc
  | setpgid | unblockBg | unblockFg | announce | waitOn | sleep =>
    exact hmoved (by simp) rfl (fun _ => id) hold
  | @byJid jid slot command argument hg =>
    refine hmoved (by simp) rfl (fun _ => id) ?_
    cases command
    · exact (getjobjid_found h.cleared hg).1
    · trivial
  | @byPid pid slot command argument hg =>
    refine hmoved (by simp) rfl (fun _ => id) ?_
    cases command
    · exact getjobpid_found hg
    · trivial
  | @jidPid command jid slot =>
    refine hmoved (by simp) rfl (fun _ => id) ?_
    cases command
    · exact ⟨hold, rfl⟩
    · trivial
  | jidFg =>
    refine hrestated (by simp) (fun _ => ⟨hold.1, .inr ⟨_, rfl⟩⟩) ?_
    simpa only [Pc.Holds, Occupied, setState_pid] using hold
  | jidBg => exact hrestated (by simp) (by simp) trivial
  | jidContFg =>
    obtain ⟨ho, rfl⟩ := hold
    refine ⟨h.cleared, fun _ i hi => ?_, ho⟩
    obtain ⟨hi', hq | ⟨_, he⟩⟩ := h.fg hl i hi
    · exact ⟨hi', .inl (.inr hq)⟩
    · rw [hpc] at he
      cases he
      exact ⟨hi', .inl (.inl rfl)⟩
  | jidContBg => exact hmoved (by simp) rfl (fun _ => .inr) trivial
  | jidWait | pidWait => exact hmoved (by simp) rfl (fun _ => id) (hpos _ hold)
  | @pidCont command slot pid =>
    refine hmoved (by simp) rfl (fun _ => .inr) ?_
    cases command
    · exact ⟨hold.1, hold.2, .inl rfl⟩
    · trivial
  | pidFg =>
    obtain ⟨ho, rfl, hq⟩ := hold
    refine hrestated (by simp) (fun _ => ⟨ho, .inl hq⟩) ?_
    simpa only [Pc.Holds, Occupied, setState_pid] using ho
  | pidBg => exact hrestated (by simp) (by simp) trivial
  | _ => exact hmoved (by simp) rfl (fun _ => id) trivial

theorem Request.pc_holds (table : JobTable) (log : List Event) (cmdline : List UInt8)
    (r : Request) : (r.pc cmdline).Holds table log := by
  cases r <;> trivial

theorem Waitable.step (h : Waitable s) (hc : Consistent s) (hu : Undisturbed s a)
    (hl : s.pc.Live) (hs : Step s a t) : Waitable t := by
  cases hs with
  | line hpc hh =>
    exact h.moved hl (by rw [hpc]; nofun) rfl (fun _ => id) (Request.pc_holds _ _ _ _)
  | eof | fail | sigquit => exact ⟨h.cleared, fun hl' => absurd rfl hl'.1, trivial⟩
  | stmt hh hm => exact h.stmt hc hl hm
  | fork hpc hp hf => exact h.moved hl (by rw [hpc]; nofun) rfl (fun _ => .inr) (.inl rfl)
  | report hh hp hr => exact h.handle hc hl hh hp hr hu
  | sigint | sigtstp =>
    unfold Sys.forward
    dsimp only
    split
    · exact ⟨h.cleared, h.fg, h.holds.mono fun _ => id⟩
    · exact h
  | deliver | handled | become | sigchld => exact ⟨h.cleared, h.fg, h.holds⟩

theorem waitable (h : (shell verbose memory).Reach Undisturbed s) : Waitable s := by
  apply h.invariant
  · exact ⟨cleared_initjobs memory, fun _ _ => nofun, trivial⟩
  · intro t a u hr ht hu hn
    obtain ⟨hl, hs⟩ := next_step hn
    exact ht.step (consistent hr.reachable) hu hl hs

/-- In a run whose handler leaves the job of `fg` alone, the loop of `waitfg` goes on only for a
job in state `FG` that is in the table and has not been reported since it was last started or
continued. -/
theorem waitfg_waits_for_job (h : (shell verbose memory).Reach Undisturbed s)
    (hpc : s.pc = .waitfg pid) (ht : fgpid s.vars.jobs = pid) :
    1 ≤ pid ∧ ∃ i, (s.vars.jobs i).pid = pid ∧ (s.vars.jobs i).state = .fg ∧ Quiet pid s.log := by
  have hw := waitable h
  have hl : s.pc.Live := by rw [hpc]; exact ⟨nofun, nofun⟩
  have hp := hw.holds
  rw [hpc] at hp
  change 1 ≤ pid at hp
  refine ⟨hp, ?_⟩
  rcases fgpid_cases s.vars.jobs with ⟨i, hi, _, he⟩ | ⟨_, he⟩
  · obtain ⟨_, hq | ⟨_, hj⟩⟩ := hw.fg hl i hi
    · rw [← he, ht] at hq
      exact ⟨i, by rw [← he, ht], hi, hq⟩
    · rw [hpc] at hj
      cases hj
  · omega

def launch : List Action :=
  [.line (chars "./myspin 1\n"), .stmt, .fork 100, .stmt, .stmt, .stmt]

theorem waitfg_waits_for_launched : ∃ s : Sys, s.pc = .waitfg 100 ∧ 1 ≤ (100 : Int) ∧
    ∃ i, (s.vars.jobs i).pid = 100 ∧ (s.vars.jobs i).state = .fg ∧ Quiet 100 s.log := by
  obtain ⟨s, hr, hpc, ht⟩ := Machine.exists_reach_of_exec (shell false emptyMemory)
    Undisturbed launch (P := fun s => s.pc = .waitfg 100 ∧ fgpid s.vars.jobs = 100)
    (by decide +kernel) (by decide +kernel)
  exact ⟨s, hpc, waitfg_waits_for_job hr hpc ht⟩

/-- A background job ends just after `fg %1` has sent it `SIGCONT`. -/
def lostJob : List Action :=
  [.line (chars "./myspin 1 &\n"), .stmt, .fork 100, .stmt, .stmt, .stmt, .stmt, .stmt,
    .line (chars "fg %1\n"), .stmt, .stmt, .stmt, .stmt, .exit 100 0, .deliver, .report 100,
    .handled, .stmt]

/-- `waitfg` is then called with the pid 0 of the cleared slot, and 0 is also what `fgpid` answers
when no job is in the foreground. -/
theorem waitfg_waits_for_nothing : ¬∀ s pid, (shell false emptyMemory).Reachable s →
    s.pc = .waitfg pid → s.handling = false → fgpid s.vars.jobs = pid →
      1 ≤ pid ∧ ∃ i, (s.vars.jobs i).pid = pid ∧ (s.vars.jobs i).state = .fg ∧ Quiet pid s.log := by
  intro hwaits
  obtain ⟨s, hr, hpc, hh, ht⟩ := Machine.exists_reach_of_exec (shell false emptyMemory)
    (fun _ _ => True) lostJob
    (P := fun s => s.pc = .waitfg 0 ∧ s.handling = false ∧ fgpid s.vars.jobs = 0)
    (Machine.along_true _ _) (by decide +kernel)
  have h := (hwaits s 0 hr hpc hh ht).1
  omega

end Cs324.Shell
