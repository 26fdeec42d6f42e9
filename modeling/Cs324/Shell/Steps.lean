import Cs324.Shell.System

namespace Cs324.Shell
set_option autoImplicit true

/-- What the statements do, one case for each way through them. -/
inductive Moves (jobs : JobTable) : Pc → Effect → Pc → Prop
  | block : Moves jobs (.block bg cmdline) (.mask true) (.fork bg cmdline)
  | setpgid : Moves jobs (.setpgid bg cmdline cpid) .nothing (.addjob bg cmdline cpid)
  | addjob : Moves jobs (.addjob bg cmdline cpid)
      (.addjob cpid 0 (if bg then .bg else .fg) cmdline) (.unblock bg cmdline cpid)
  | unblockBg : Moves jobs (.unblock true cmdline cpid) (.mask false) (.announce cmdline cpid)
  | unblockFg : Moves jobs (.unblock false cmdline cpid) (.mask false) (.waitfg cpid)
  | announce : Moves jobs (.announce cmdline cpid)
      (.print (.jobLine (pid2jid jobs cpid) cpid cmdline)) (.waitfg cpid)
  | waitOn (h : fgpid jobs = pid) : Moves jobs (.waitfg pid) .nothing (.sleep pid)
  | waitEnd (h : fgpid jobs ≠ pid) : Moves jobs (.waitfg pid) .nothing .prompt
  | sleep : Moves jobs (.sleep pid) .nothing (.waitfg pid)
  | message : Moves jobs (.bgfg command argument) (.print output) .prompt
  | byJid (h : getjobjid jobs jid = some slot) :
      Moves jobs (.bgfg command argument) .nothing (.jidPid command jid slot)
  | byPid (h : getjobpid jobs pid = some slot) :
      Moves jobs (.bgfg command argument) .nothing (.pidCont command slot pid)
  | jidPid : Moves jobs (.jidPid command jid slot) .nothing
      (.jidState command jid slot (jobs slot).pid)
  | jidFg : Moves jobs (.jidState .fg jid slot pid) (.setState slot .fg) (.jidCont .fg slot pid)
  | jidBg : Moves jobs (.jidState .bg jid slot pid) (.setState slot .bg) (.jidPrint jid slot pid)
  | jidPrint : Moves jobs (.jidPrint jid slot pid)
      (.print (.jobLine jid pid (jobs slot).cmdline)) (.jidCont .bg slot pid)
  | jidContFg : Moves jobs (.jidCont .fg slot pid) (.sigcont pid) (.jidWait slot)
  | jidContBg : Moves jobs (.jidCont .bg slot pid) (.sigcont pid) .prompt
  | jidWait : Moves jobs (.jidWait slot) .nothing (.waitfg (jobs slot).pid)
  | pidCont : Moves jobs (.pidCont command slot pid) (.sigcont pid) (.pidState command slot pid)
  | pidFg : Moves jobs (.pidState .fg slot pid) (.setState slot .fg) (.pidWait slot)
  | pidBg : Moves jobs (.pidState .bg slot pid) (.setState slot .bg) (.pidPrint slot pid)
  | pidPrint : Moves jobs (.pidPrint slot pid)
      (.print (.jobLine (jobs slot).jid pid (jobs slot).cmdline)) .prompt
  | pidWait : Moves jobs (.pidWait slot) .nothing (.waitfg (jobs slot).pid)
  | list : Moves jobs (.listjobs slot) (.print output) (.listjobs (slot + 1))
  | listEmpty : Moves jobs (.listjobs slot) .nothing (.listjobs (slot + 1))
  | listEnd : Moves jobs (.listjobs slot) .nothing .prompt

theorem bgfgLookup_moves (jobs : JobTable) (command : Command)
    (argument : Option (List UInt8)) :
    Moves jobs (.bgfg command argument) (bgfgLookup jobs command argument).1
      (bgfgLookup jobs command argument).2 := by
  cases argument with
  | none => exact .message
  | some argument =>
    unfold bgfgLookup
    dsimp only
    split
    · split
      · exact .byJid ‹_›
      · exact .message
    · split
      · split
        · exact .byPid ‹_›
        · exact .message
      · exact .message

theorem stmt_moves (h : stmt jobs pc = some (effect, pc')) : Moves jobs pc effect pc' := by
  cases pc with
  | prompt | fork | exited | crashed => cases h
  | unblock bg cmdline cpid =>
    cases h
    cases bg
    · exact .unblockFg
    · exact .unblockBg
  | waitfg pid =>
    cases h
    split
    · exact .waitOn ‹_›
    · exact .waitEnd ‹_›
  | bgfg command argument =>
    have hm := bgfgLookup_moves jobs command argument
    rw [Option.some.inj h] at hm
    exact hm
  | jidState command jid slot pid =>
    cases h
    cases command
    · exact .jidFg
    · exact .jidBg
  | jidCont command slot pid =>
    cases h
    cases command
    · exact .jidContFg
    · exact .jidContBg
  | pidState command slot pid =>
    cases h
    cases command
    · exact .pidFg
    · exact .pidBg
  | listjobs slot =>
    simp only [stmt] at h
    split at h
    · cases h
      split
      · exact .list
      · exact .listEmpty
    · cases h
      exact .listEnd
  | _ =>
    cases h
    constructor

inductive Step (s : Sys) : Action → Sys → Prop
  | line (hpc : s.pc = .prompt) (hh : s.handling = false) : Step s (.line cmdline)
      { s with pc := (request (cstring cmdline)).pc (cstring cmdline) }
  | eof (hpc : s.pc = .prompt) : Step s .eof { s with pc := .exited }
  | stmt (hh : s.handling = false) (hm : Moves s.vars.jobs s.pc effect pc) :
      Step s .stmt { s.perform effect with pc }
  | fork (hpc : s.pc = .fork bg cmdline) (hp : 1 ≤ pid) (hf : pid ∉ s.children) :
      Step s (.fork pid) { s with
        pc := .setpgid bg cmdline pid
        children := insert pid s.children
        status := Function.update s.status pid .running
        log := .started pid :: s.log }
  | fail : Step s .fail { s with pc := .exited }
  | deliver (hb : s.blocked = false) (hh : s.handling = false) :
      Step s .deliver { s with pending := false, handling := true }
  | report (hh : s.handling = true) (hc : pid ∈ s.children)
      (hr : (s.status pid).report = some report) : Step s (.report pid) (s.handle pid report)
  | handled (hn : ∀ pid ∈ s.children, (s.status pid).report = none) :
      Step s .handled { s with handling := false }
  | sigint : Step s .sigint (s.forward 2)
  | sigtstp : Step s .sigtstp (s.forward 20)
  | sigquit : Step s .sigquit { s with pc := .exited }
  | become (a : Action) (hc : pid ∈ s.children) (hs : ¬(s.status pid).Ended) :
      Step s a (s.become pid status)
  | sigchld : Step s .sigchld { s with pending := true }

theorem ChildStatus.not_ended_of_stopped (h : ChildStatus.isStopped status = true) :
    ¬status.Ended := by
  cases status <;> simp_all [isStopped, Ended]

theorem ChildStatus.not_ended_of_running (h : status = ChildStatus.running) : ¬status.Ended := by
  simp [h, Ended]

theorem next_step (h : s.next a = some t) : s.pc.Live ∧ Step s a t := by
  unfold Sys.next at h
  split at h
  case isFalse => cases h
  case isTrue hl =>
  refine ⟨hl, ?_⟩
  cases a with
  | line cmdline =>
    simp only [Option.ite_none_right_eq_some, Option.some.injEq] at h
    obtain ⟨⟨hpc, hh⟩, rfl⟩ := h
    exact .line hpc (by simpa using hh)
  | eof =>
    simp only [Option.ite_none_right_eq_some, Option.some.injEq] at h
    obtain ⟨⟨hpc, _⟩, rfl⟩ := h
    exact .eof hpc
  | stmt =>
    simp only [Option.ite_none_left_eq_some, Option.map_eq_some_iff] at h
    obtain ⟨hh, ⟨effect, pc⟩, hs, rfl⟩ := h
    exact .stmt (by simpa using hh) (stmt_moves hs)
  | fork pid =>
    dsimp only at h
    split at h
    · rename_i bg cmdline hpc
      simp only [Option.ite_none_right_eq_some, Option.some.injEq] at h
      obtain ⟨⟨hp, hf⟩, rfl⟩ := h
      exact .fork hpc hp hf
    · cases h
  | fail =>
    dsimp only at h
    split at h
    · cases h
      exact .fail
    · cases h
      exact .fail
    · cases h
  | deliver =>
    simp only [Option.ite_none_right_eq_some, Option.some.injEq] at h
    obtain ⟨⟨_, hb, hh⟩, rfl⟩ := h
    exact .deliver (by simpa using hb) (by simpa using hh)
  | report pid =>
    simp only [Option.ite_none_right_eq_some, Option.map_eq_some_iff] at h
    obtain ⟨⟨hh, hc⟩, report, hr, rfl⟩ := h
    exact .report hh hc hr
  | handled =>
    simp only [Option.ite_none_right_eq_some, Option.some.injEq] at h
    obtain ⟨⟨_, hn⟩, rfl⟩ := h
    exact .handled hn
  | sigint =>
    cases h
    exact .sigint
  | sigtstp =>
    cases h
    exact .sigtstp
  | sigquit =>
    cases h
    exact .sigquit
  | stop pid sig =>
    simp only [Option.ite_none_right_eq_some, Option.some.injEq] at h
    obtain ⟨⟨hc, hs⟩, rfl⟩ := h
    exact .become _ hc (ChildStatus.not_ended_of_running hs)
  | resume pid =>
    simp only [Option.ite_none_right_eq_some, Option.some.injEq] at h
    obtain ⟨⟨hc, hs⟩, rfl⟩ := h
    exact .become _ hc (ChildStatus.not_ended_of_stopped hs)
  | exit pid code =>
    simp only [Option.ite_none_right_eq_some, Option.some.injEq] at h
    obtain ⟨⟨hc, hs⟩, rfl⟩ := h
    exact .become _ hc (ChildStatus.not_ended_of_running hs)
  | kill pid sig =>
    simp only [Option.ite_none_right_eq_some, Option.some.injEq] at h
    obtain ⟨⟨hc, hs⟩, rfl⟩ := h
    exact .become _ hc (hs.elim ChildStatus.not_ended_of_running ChildStatus.not_ended_of_stopped)
  | sigchld =>
    cases h
    exact .sigchld

theorem Moves.masked (h : Moves jobs pc effect pc') : pc'.masked = match effect with
    | .mask blocked => blocked
    | _ => pc.masked := by
  cases h <;> rfl

@[simp] theorem setState_pid (jobs : JobTable) (slot i : Fin maxJobs) (state : JobState) :
    (setState jobs slot state i).pid = (jobs i).pid := by
  by_cases he : i = slot
  · subst he
    simp [setState]
  · simp [setState, Function.update_of_ne he]

@[simp] theorem setState_jid (jobs : JobTable) (slot i : Fin maxJobs) (state : JobState) :
    (setState jobs slot state i).jid = (jobs i).jid := by
  by_cases he : i = slot
  · subst he
    simp [setState]
  · simp [setState, Function.update_of_ne he]

theorem setState_state (jobs : JobTable) (slot i : Fin maxJobs) (state : JobState) :
    (setState jobs slot state i).state = if i = slot then state else (jobs i).state := by
  by_cases he : i = slot
  · subst he
    simp [setState]
  · simp [setState, he]

section perform
variable (s : Sys) (effect : Effect)

@[simp] theorem perform_children : (s.perform effect).children = s.children := by
  cases effect <;> rfl

@[simp] theorem perform_handling : (s.perform effect).handling = s.handling := by
  cases effect <;> rfl

@[simp] theorem perform_pending : (s.perform effect).pending = s.pending := by
  cases effect <;> rfl

theorem perform_blocked : (s.perform effect).blocked = match effect with
    | .mask blocked => blocked
    | _ => s.blocked := by
  cases effect <;> rfl

theorem ended_continued (status : ChildStatus) : status.continued.Ended ↔ status.Ended := by
  cases status <;> exact Iff.rfl

theorem perform_ended (pid : Int) :
    ((s.perform effect).status pid).Ended ↔ (s.status pid).Ended := by
  cases effect with
  | sigcont target =>
    by_cases he : pid = target
    · subst he
      simp only [Sys.perform, Function.update_self, ended_continued]
    · simp only [Sys.perform, Function.update_of_ne he]
  | _ => exact Iff.rfl

end perform

theorem perform_pid (s : Sys)
    (h : ∀ pid pgid state cmdline, effect ≠ .addjob pid pgid state cmdline)
    (i : Fin maxJobs) : ((s.perform effect).vars.jobs i).pid = (s.vars.jobs i).pid := by
  cases effect with
  | addjob => exact absurd rfl (h _ _ _ _)
  | setState slot state => exact setState_pid _ _ _ _
  | _ => rfl

def Report.Ended : Report → Prop
  | .stopped _ => False
  | .killed _ | .exited => True

theorem ended_of_report (h : ChildStatus.report status = some report) :
    status.Ended ↔ report.Ended := by
  cases status with
  | running => cases h
  | stopped sig reported =>
    cases reported
    · cases h
      exact Iff.rfl
    · cases h
  | killed | exited =>
    cases h
    exact Iff.rfl

theorem not_ended_of_no_report (h : ChildStatus.report status = none) : ¬status.Ended := by
  cases status <;> first | exact id | cases h

/-- The handler deletes the job of a child that has ended, restates the job of one that has
stopped, and writes through a null pointer when a stopped child has no job. -/
theorem handle_cases (s : Sys) (pid : Int) (report : Report) :
    (report.Ended ∧ ∃ outputs : List Output, s.handle pid report = { s with
      vars := (deletejob s.vars pid).2
      children := s.children.erase pid
      log := outputs.map .printed ++ .reported pid report :: s.log }) ∨
    (¬report.Ended ∧ ∃ slot output sig, getjobpid s.vars.jobs pid = some slot ∧
      s.handle pid report = { s with
        vars.jobs := setState s.vars.jobs slot .st
        status := Function.update s.status pid (.stopped sig true)
        log := .printed output :: .reported pid report :: s.log }) ∨
    (¬report.Ended ∧ getjobpid s.vars.jobs pid = none ∧ s.handle pid report =
      { s with pc := .crashed, log := .reported pid report :: s.log }) := by
  cases report with
  | stopped sig =>
    cases hg : getjobpid s.vars.jobs pid with
    | some slot =>
      refine .inr (.inl ⟨id, slot, .stoppedBy (pid2jid s.vars.jobs pid) pid sig, sig, rfl, ?_⟩)
      simp only [Sys.handle, hg]
    | none =>
      refine .inr (.inr ⟨id, rfl, ?_⟩)
      simp only [Sys.handle, hg]
  | killed sig => exact .inl ⟨trivial, [.terminatedBy (pid2jid s.vars.jobs pid) pid sig], rfl⟩
  | exited => exact .inl ⟨trivial, [], rfl⟩

theorem handle_pc (s : Sys) (pid : Int) (report : Report) :
    (s.handle pid report).pc = s.pc ∨ (s.handle pid report).pc = .crashed := by
  rcases handle_cases s pid report with ⟨_, _, he⟩ | ⟨_, _, _, _, _, he⟩ | ⟨_, _, he⟩
  · exact .inl (by rw [he])
  · exact .inl (by rw [he])
  · exact .inr (by rw [he])

end Cs324.Shell
