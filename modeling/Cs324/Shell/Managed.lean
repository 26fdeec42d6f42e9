import Cs324.Shell.Children
import Cs324.Shell.Foreground
import Cs324.Shell.JobNumbers

namespace Cs324.Shell
set_option autoImplicit true

/-- The job of a child is in the foreground. -/
def ForegroundJob (jobs : JobTable) (pid : Int) : Prop := ∃ i, InFg jobs i ∧ (jobs i).pid = pid

/-- `eval` has forked the child for a foreground command, and has not returned. -/
def Pc.InEval (jobs : JobTable) (cpid : Int) : Pc → Prop
  | .setpgid false _ pid | .addjob false _ pid => pid = cpid
  | .unblock false _ pid | .waitfg pid | .sleep pid => pid = cpid ∧ ForegroundJob jobs cpid
  | _ => False

theorem ForegroundJob.added (hslot : ∃ i, ¬Occupied g.jobs i) (hp : 1 ≤ pid) :
    ForegroundJob (addjob g pid pgid .fg cmdline).2.1.jobs pid := by
  rcases addjob_cases g pid pgid .fg cmdline with ⟨_, _, hfull⟩ | ⟨i, _, _, _, _, he⟩
  · obtain ⟨i, hi⟩ := hslot
    exact absurd (hfull hp i) hi
  · rw [he]
    exact ⟨i, by simp [InFg], by simp⟩

/-- A report on another child leaves the job as it is. -/
theorem ForegroundJob.handle {s : Sys} (h : ForegroundJob s.vars.jobs cpid) (hne : pid ≠ cpid)
    (report : Report) : ForegroundJob (s.handle pid report).vars.jobs cpid := by
  obtain ⟨i, hi, rfl⟩ := h
  rcases handle_cases s pid report with ⟨_, _, he⟩ | ⟨_, slot, _, _, hg, he⟩ | ⟨_, _, he⟩
  · rw [he]
    rcases deletejob_cases s.vars pid with ⟨hh, _⟩ | ⟨k, _, hk, _, hh⟩
    · rw [hh]
      exact ⟨i, hi, rfl⟩
    · have hik : i ≠ k := by
        rintro rfl
        exact hne hk.symm
      rw [hh]
      exact ⟨i, by simpa only [InFg, Function.update_of_ne hik] using hi,
        by simp only [Function.update_of_ne hik]⟩
  · have hik : i ≠ slot := by
      rintro rfl
      exact hne (firstWith_eq_some.1 hg).2.1.symm
    rw [he]
    refine ⟨i, ?_, setState_pid _ _ _ _⟩
    rw [InFg, setState_state, if_neg hik]
    exact hi
  · rw [he]
    exact ⟨i, hi, rfl⟩

/-- `waitpid` has reported the child after the events in `log`. -/
def ReportedSince (log : List Event) (pid : Int) (s : Sys) : Prop :=
  ∃ new report, s.log = new ++ log ∧ Event.reported pid report ∈ new

theorem perform_log (s : Sys) (effect : Effect) : s.log <:+ (s.perform effect).log := by
  cases effect with
  | addjob => exact List.suffix_append _ _
  | sigcont | print => exact List.suffix_cons _ _
  | _ => exact List.suffix_rfl

theorem handle_log (s : Sys) (pid : Int) (report : Report) :
    ∃ new, (s.handle pid report).log = new ++ s.log ∧ .reported pid report ∈ new := by
  rcases handle_cases s pid report with ⟨_, outputs, he⟩ | ⟨_, _, output, _, _, he⟩ | ⟨_, _, he⟩
  · rw [he]
    exact ⟨outputs.map .printed ++ [.reported pid report], by simp, by simp⟩
  · rw [he]
    exact ⟨[.printed output, .reported pid report], rfl, by simp⟩
  · rw [he]
    exact ⟨[.reported pid report], rfl, by simp⟩

theorem log_grows (h : Step s a t) : s.log <:+ t.log := by
  cases h with
  | stmt => exact perform_log _ _
  | fork => exact List.suffix_cons _ _
  | report =>
    obtain ⟨new, he, _⟩ := handle_log s _ _
    exact ⟨new, he.symm⟩
  | sigint | sigtstp =>
    unfold Sys.forward
    dsimp only
    split
    · exact List.suffix_cons _ _
    · exact List.suffix_rfl
  | _ => exact List.suffix_rfl

theorem ReportedSince.mono (h : ReportedSince log pid s) (hlog : s.log <:+ t.log) :
    ReportedSince log pid t := by
  obtain ⟨new, report, he, hm⟩ := h
  obtain ⟨newer, hn⟩ := hlog
  exact ⟨newer ++ new, report, by rw [← hn, he, List.append_assoc], List.mem_append_right _ hm⟩

theorem InEval.stmt {s : Sys} (h : s.pc.InEval s.vars.jobs cpid) (hc : Consistent s)
    (hf : OneForeground s) (hslot : FindsSlot s .stmt) (hm : Moves s.vars.jobs s.pc effect pc) :
    pc.InEval (s.perform effect).vars.jobs cpid := by
  generalize hpc : s.pc = pc₀ at h hm
  cases hm with
  | @setpgid bg =>
    cases bg
    · exact h
    · cases h
  | @addjob bg cmdline pid =>
    cases bg
    · obtain rfl : pid = cpid := h
      have hp := hc.positive pid (hc.newborn pid (by rw [hpc]; rfl)).1
      exact ⟨rfl, .added (hslot ⟨rfl, by rw [hpc]; rfl⟩) hp⟩
    · cases h
  | unblockFg | waitOn | sleep => exact h
  | waitEnd hne =>
    obtain ⟨rfl, i, hi, he⟩ := h
    exact absurd ((hf.fgpid_eq hi).trans he) hne
  | _ => cases h

theorem InEval.step {s : Sys} (h : s.pc.InEval s.vars.jobs cpid) (hc : Consistent s)
    (hf : OneForeground s) (hslot : FindsSlot s a) (hs : Step s a t) :
    ReportedSince s.log cpid t ∨ ¬t.pc.Live ∨ t.pc.InEval t.vars.jobs cpid := by
  cases hs with
  | line hpc | fork hpc =>
    rw [hpc] at h
    cases h
  | eof | fail | sigquit => exact .inr (.inl fun hl => hl.1 rfl)
  | stmt hh hm => exact .inr (.inr (InEval.stmt h hc hf hslot hm))
  | @report pid report hh hp hr =>
    by_cases he : pid = cpid
    · subst he
      obtain ⟨new, hlog, hm⟩ := handle_log s pid report
      exact .inl ⟨new, report, hlog, hm⟩
    · rcases handle_pc s pid report with hpc | hpc
      · right
        right
        rw [hpc]
        generalize s.pc = pc at h
        cases pc with
        | unblock bg =>
          cases bg
          · exact ⟨h.1, h.2.handle he report⟩
          · cases h
        | waitfg | sleep => exact ⟨h.1, h.2.handle he report⟩
        | setpgid bg | addjob bg =>
          cases bg
          · exact h
          · cases h
        | _ => cases h
      · exact .inr (.inl fun hl => hl.2 hpc)
  | sigint | sigtstp =>
    unfold Sys.forward
    dsimp only
    split <;> exact .inr (.inr h)
  | deliver | handled | become | sigchld => exact .inr (.inr h)

/-- A run goes on from where `eval` has forked the child for a foreground command: the child has
been reported since, or `eval` has not returned. -/
structure Awaited (log : List Event) (cpid : Int) (s : Sys) : Prop where
  consistent : Consistent s
  foreground : OneForeground s
  grown : log <:+ s.log
  awaited : ReportedSince log cpid s ∨ ¬s.pc.Live ∨ s.pc.InEval s.vars.jobs cpid

theorem Awaited.step (h : Awaited log cpid s) (hslot : FindsSlot s a) (hl : s.pc.Live)
    (hs : Step s a t) : Awaited log cpid t := by
  have hlog := log_grows hs
  refine ⟨h.consistent.step hl hs, h.foreground.step hs, h.grown.trans hlog, ?_⟩
  rcases h.awaited with hr | hd | he
  · exact .inl (hr.mono hlog)
  · exact absurd hl hd
  · rcases InEval.step he h.consistent h.foreground hslot hs with ⟨new, report, hn, hm⟩ | he
    · obtain ⟨old, ho⟩ := h.grown
      exact .inl ⟨new ++ old, report, by rw [hn, ← ho, List.append_assoc],
        List.mem_append_left _ hm⟩
    · exact .inr he

/-- If `addjob` always finds an empty slot, then whenever the handler runs each child has an entry
in the table, so that the handler never writes through a null pointer; and `eval` returns from a
foreground command only after its child has been reported. -/
theorem no_unmanaged_child (h : (shell verbose memory).Reach FindsSlot s) :
    s.pc ≠ .crashed ∧
    (s.pc.Live → s.handling = true →
      ∀ pid ∈ s.children, ∃ slot, getjobpid s.vars.jobs pid = some slot) ∧
    (∀ cmdline cpid as t, s.pc = .setpgid false cmdline cpid →
      (shell verbose memory).Along FindsSlot s as → (shell verbose memory).exec s as = some t →
      t.pc = .prompt → ReportedSince s.log cpid t) := by
  have hc := consistent h.reachable
  have hm := managed h
  refine ⟨hm.alive, fun hl hh pid hp => ?_, fun cmdline cpid as t hpc has he ht => ?_⟩
  · cases hg : getjobpid s.vars.jobs pid with
    | some slot => exact ⟨slot, rfl⟩
    | none =>
      obtain ⟨i, _, hi⟩ := hm.mem_pids hc hl hh hp
      exact absurd hi (firstWith_eq_none.1 hg (hc.positive pid hp) i)
  · have hstart : Awaited s.log cpid s := by
      refine ⟨hc, oneForeground h.reachable, List.suffix_rfl, .inr (.inr ?_)⟩
      rw [hpc]
      rfl
    have hend : Awaited s.log cpid t :=
      Machine.exec_invariant (I := Awaited s.log cpid) hstart (fun ha hok hn => by
        obtain ⟨hl, hs⟩ := next_step hn
        exact ha.step hok hl hs) has he
    rcases hend.awaited with hr | hd | he
    · exact hr
    · exact absurd ⟨by rw [ht]; simp, by rw [ht]; simp⟩ hd
    · rw [ht] at he
      cases he

def forkForeground : List Action := [.line (chars "./myspin 1\n"), .stmt, .fork 100]

/-- The child ends and is reported while `waitfg` waits. -/
def endForeground : List Action :=
  [.stmt, .stmt, .stmt, .exit 100 0, .deliver, .report 100, .handled, .stmt]

theorem no_unmanaged_child_foreground : ∃ s t : Sys,
    (shell false emptyMemory).exec s endForeground = some t ∧ t.pc = .prompt ∧
      ReportedSince s.log 100 t := by
  obtain ⟨s, hs, hpc, has, he⟩ := (shell false emptyMemory).exists_reach_of_exec FindsSlot
    forkForeground (P := fun s => s.pc = .setpgid false (chars "./myspin 1\n") 100 ∧
      (shell false emptyMemory).Along FindsSlot s endForeground ∧
      ((shell false emptyMemory).exec s endForeground).map Sys.pc = some .prompt)
    (by decide +kernel) (by decide +kernel)
  obtain ⟨t, ht, hret⟩ := Option.map_eq_some_iff.1 he
  exact ⟨s, t, ht, hret, (no_unmanaged_child hs).2.2 _ 100 endForeground t hpc has ht hret⟩

/-- The steps of the shell that start a background job. -/
def startBg (pid : Int) : List Action :=
  [.line (chars "./a &\n"), .stmt, .fork pid, .stmt, .stmt, .stmt, .stmt, .stmt]

def fillTable : List Action := (List.range 16).flatMap fun k => startBg (100 + k)

/-- A foreground command for which there is no slot left. -/
def oneMore : List Action :=
  fillTable ++ [.line (chars "./a\n"), .stmt, .fork 116, .stmt, .stmt, .stmt, .stmt]

/-- `eval` returns at once while the command runs; when the command is stopped, the handler writes
through a null pointer. -/
theorem untracked_child_crashes_shell :
    (∃ s, (shell false emptyMemory).Reachable s ∧ s.pc = .prompt ∧ 116 ∈ s.children ∧
      s.status 116 = .running) ∧
    ∃ s, (shell false emptyMemory).Reachable s ∧ s.pc = .crashed := by
  constructor
  · exact (shell false emptyMemory).exists_reach_of_exec (fun _ _ => True) oneMore
      (P := fun s => s.pc = .prompt ∧ 116 ∈ s.children ∧ s.status 116 = .running)
      (Machine.along_true _ _) (by decide +kernel)
  · exact (shell false emptyMemory).exists_reach_of_exec (fun _ _ => True)
      (oneMore ++ [.stop 116 20, .deliver, .report 116]) (P := fun s => s.pc = .crashed)
      (Machine.along_true _ _) (by decide +kernel)

end Cs324.Shell
