import Cs324.Shell.Steps

namespace Cs324.Shell
set_option autoImplicit true

def InFg (jobs : JobTable) (i : Fin maxJobs) : Prop := (jobs i).state = .fg

/-- Where a slot in state `FG` can be while control is at `pc`: nowhere at the prompt, at the
child that `eval` waits for, or at the slot that `fg` has restated. -/
def Pc.AllowsFg (jobs : JobTable) (i : Fin maxJobs) : Pc → Prop
  | .unblock _ _ pid | .announce _ pid | .waitfg pid | .sleep pid => (jobs i).pid = pid
  | .jidCont .fg slot _ | .jidWait slot | .pidWait slot => i = slot
  | .exited | .crashed => True
  | _ => False

structure OneForeground (s : Sys) : Prop where
  unique : ∀ i j, InFg s.vars.jobs i → InFg s.vars.jobs j → i = j
  allowed : ∀ i, InFg s.vars.jobs i → s.pc.AllowsFg s.vars.jobs i

/-- A table whose slots in state `FG` were in it before, under the same pid. -/
def FgFrom (jobs jobs' : JobTable) : Prop :=
  ∀ i, InFg jobs' i → InFg jobs i ∧ (jobs' i).pid = (jobs i).pid

theorem Pc.AllowsFg.congr (h : Pc.AllowsFg jobs i pc) (he : (jobs' i).pid = (jobs i).pid) :
    Pc.AllowsFg jobs' i pc := by
  cases pc with
  | jidCont command slot pid => cases command <;> exact h
  | unblock | announce | waitfg | sleep => exact he.trans h
  | _ => exact h

theorem OneForeground.from (h : OneForeground s) (hf : FgFrom s.vars.jobs t.vars.jobs)
    (hpc : t.pc = s.pc) : OneForeground t where
  unique i j hi hj := h.unique i j (hf i hi).1 (hf j hj).1
  allowed i hi := by
    rw [hpc]
    exact (h.allowed i (hf i hi).1).congr (hf i hi).2

theorem fgFrom_setState (hst : state ≠ JobState.fg) : FgFrom jobs (setState jobs slot state) := by
  intro i hi
  rw [InFg, setState_state] at hi
  split at hi
  · exact absurd hi hst
  · exact ⟨hi, setState_pid _ _ _ _⟩

theorem fgFrom_deletejob (g : Globals) (pid : Int) : FgFrom g.jobs (deletejob g pid).2.jobs := by
  intro i hi
  rcases deletejob_cases g pid with ⟨he, _⟩ | ⟨j, _, _, _, he⟩
  · rw [he] at hi ⊢
    exact ⟨hi, rfl⟩
  · rw [he] at hi ⊢
    by_cases hij : i = j
    · subst hij
      simp [InFg, clearjob] at hi
    · simp only [InFg, Function.update_of_ne hij] at hi ⊢
      exact ⟨hi, trivial⟩

/-- No run of the handler puts a job in the foreground. -/
theorem fgFrom_handle (s : Sys) (pid : Int) (report : Report) :
    FgFrom s.vars.jobs (s.handle pid report).vars.jobs := by
  rcases handle_cases s pid report with ⟨_, _, he⟩ | ⟨_, _, _, _, _, he⟩ | ⟨_, _, he⟩
  · rw [he]
    exact fgFrom_deletejob _ _
  · rw [he]
    exact fgFrom_setState nofun
  · rw [he]
    exact fun i hi => ⟨hi, rfl⟩

theorem OneForeground.handle (h : OneForeground s) (pid : Int) (report : Report) :
    OneForeground (s.handle pid report) := by
  have hf := fgFrom_handle s pid report
  rcases handle_pc s pid report with hpc | hpc
  · exact h.from hf hpc
  · exact ⟨fun i j hi hj => h.unique i j (hf i hi).1 (hf j hj).1, fun i _ => by rw [hpc]; trivial⟩

/-- If `FG` is allowed nowhere, putting one slot in it keeps it unique. -/
theorem unique_setState (hn : ∀ i, ¬InFg jobs i) (hi : InFg (setState jobs slot state) i) :
    i = slot := by
  rw [InFg, setState_state] at hi
  split at hi
  · assumption
  · exact absurd hi (hn i)

theorem fgFrom_addjob (hi : InFg (addjob g pid pgid state cmdline).2.1.jobs i) :
    InFg g.jobs i ∨ state = .fg ∧ ((addjob g pid pgid state cmdline).2.1.jobs i).pid = pid ∧
      ∀ j, InFg (addjob g pid pgid state cmdline).2.1.jobs j → InFg g.jobs j ∨ j = i := by
  rcases addjob_cases g pid pgid state cmdline with ⟨_, he, _⟩ | ⟨k, _, _, _, _, he⟩
  · rw [he] at hi
    exact .inl hi
  · rw [he] at hi ⊢
    by_cases hik : i = k
    · subst hik
      refine .inr ⟨by simpa [InFg] using hi, by simp, fun j hj => ?_⟩
      by_cases hji : j = i
      · exact .inr hji
      · simp only [InFg, Function.update_of_ne hji] at hj
        exact .inl hj
    · simp only [InFg, Function.update_of_ne hik] at hi
      exact .inl hi

theorem OneForeground.none_of (h : OneForeground s)
    (hpc : ∀ i, ¬s.pc.AllowsFg s.vars.jobs i) (i : Fin maxJobs) : ¬InFg s.vars.jobs i :=
  fun hi => hpc i (h.allowed i hi)

theorem OneForeground.of_none (h : ∀ i, ¬InFg s.vars.jobs i) : OneForeground s :=
  ⟨fun i _ hi => absurd hi (h i), fun i hi => absurd hi (h i)⟩

/-- When the loop of `waitfg` ends, no slot is in state `FG`. -/
theorem none_of_waitEnd (h : ∀ i, InFg jobs i → (jobs i).pid = pid) (hf : fgpid jobs ≠ pid)
    (i : Fin maxJobs) : ¬InFg jobs i := by
  intro hi
  rcases fgpid_cases jobs with ⟨j, hj, _, he⟩ | ⟨hn, _⟩
  · exact hf (he.trans (h j hj))
  · exact hn i hi

theorem OneForeground.stmt (h : OneForeground s) (hm : Moves s.vars.jobs s.pc effect pc) :
    OneForeground { s.perform effect with pc } := by
  have hnone := h.none_of
  have hat := h.allowed
  have huni := h.unique
  generalize s.pc = pc₀ at hm hnone hat
  cases hm with
  | addjob =>
    have hn := hnone fun _ => id
    constructor
    · intro i j hi hj
      rcases fgFrom_addjob hi with hi | ⟨_, _, ho⟩
      · exact absurd hi (hn i)
      · exact ((ho j hj).resolve_left (hn j)).symm
    · intro i hi
      rcases fgFrom_addjob hi with hi | ⟨_, he, _⟩
      · exact absurd hi (hn i)
      · exact he
  | unblockBg | unblockFg | announce | waitOn | sleep => exact ⟨huni, hat⟩
  | waitEnd hf => exact .of_none (none_of_waitEnd hat hf)
  | jidFg | pidFg =>
    have hn := hnone fun _ => id
    refine ⟨fun i j hi hj => ?_, fun i hi => unique_setState hn hi⟩
    rw [unique_setState hn hi, unique_setState hn hj]
  | jidBg | pidBg =>
    have hn := hnone fun _ => id
    exact .of_none fun i hi => hn i (fgFrom_setState (nofun : JobState.bg ≠ .fg) i hi).1
  | jidContFg => exact ⟨huni, hat⟩
  | jidWait | pidWait => exact ⟨huni, fun i hi => by rw [hat i hi]; rfl⟩
  | _ => exact .of_none (hnone fun _ => id)

theorem OneForeground.step (h : OneForeground s) (hs : Step s a t) : OneForeground t := by
  cases hs with
  | line hpc hh =>
    exact .of_none (h.none_of fun i ha => by rw [hpc] at ha; exact ha)
  | eof | fail | sigquit => exact ⟨h.unique, fun _ _ => trivial⟩
  | stmt hh hm => exact h.stmt hm
  | fork hpc hp hf =>
    exact .of_none (h.none_of fun i ha => by rw [hpc] at ha; exact ha)
  | report hh hc hr => exact h.handle _ _
  | sigint | sigtstp =>
    unfold Sys.forward
    dsimp only
    split <;> exact ⟨h.unique, h.allowed⟩
  | deliver | handled | become | sigchld => exact ⟨h.unique, h.allowed⟩

theorem oneForeground (h : (shell verbose memory).Reachable s) : OneForeground s := by
  apply h.invariant
  · exact .of_none fun i hi => nomatch hi
  · intro t a u _ ht _ hn
    exact ht.step (next_step hn).2

theorem OneForeground.fgpid_eq (h : OneForeground s) (hi : InFg s.vars.jobs i) :
    fgpid s.vars.jobs = (s.vars.jobs i).pid := by
  rcases fgpid_cases s.vars.jobs with ⟨j, hj, _, he⟩ | ⟨hn, _⟩
  · rw [he, h.unique j i hj hi]
  · exact absurd hi (hn i)

/-- In every reachable state at most one slot is in state `FG`, and none is at the prompt. The
handlers of ctrl-c and ctrl-z signal the process group of the job in that slot, and nothing if
there is no such job. -/
theorem at_most_one_foreground (h : (shell verbose memory).Reachable s) :
    (∀ i j, (s.vars.jobs i).state = .fg → (s.vars.jobs j).state = .fg → i = j) ∧
      (s.pc = .prompt → ∀ i, (s.vars.jobs i).state ≠ .fg) ∧
      (∀ sig i, (s.vars.jobs i).state = .fg → Occupied s.vars.jobs i →
        s.forward sig = { s with log := .signalled (-(s.vars.jobs i).pid) sig :: s.log }) ∧
      (∀ sig, (∀ i, (s.vars.jobs i).state = .fg → ¬Occupied s.vars.jobs i) →
        s.forward sig = s) := by
  have hf := oneForeground h
  refine ⟨hf.unique, fun hpc => hf.none_of fun i ha => ?_, fun sig i hi ho => ?_, fun sig hn => ?_⟩
  · rw [hpc] at ha
    exact ha
  · have he := hf.fgpid_eq hi
    have hp : (s.vars.jobs i).pid ≠ 0 := ho
    simp [Sys.forward, he, hp]
  · have he : fgpid s.vars.jobs = 0 := by
      rcases fgpid_cases s.vars.jobs with ⟨j, hj, _, he⟩ | ⟨_, he⟩
      · rw [he]
        exact not_not.1 (hn j hj)
      · exact he
    simp [Sys.forward, he]

def foregroundJob : List Action :=
  [.line (chars "./myspin 1\n"), .stmt, .fork 100, .stmt, .stmt, .stmt, .stmt]

theorem one_foreground_job : ∃ s : Sys, (s.vars.jobs 0).state = .fg ∧
    ∀ i, (s.vars.jobs i).state = .fg → i = 0 := by
  obtain ⟨s, hr, hs⟩ := Machine.exists_reach_of_exec
    (shell false fun _ => ⟨0, 0, 0, .undef, []⟩) (fun _ _ => True) foregroundJob
    (P := fun s => (s.vars.jobs 0).state = .fg) (Machine.along_true _ _) (by decide +kernel)
  exact ⟨s, hs, fun i hi => (at_most_one_foreground hr).1 i 0 hi hs⟩

end Cs324.Shell
