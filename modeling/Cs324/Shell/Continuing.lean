import Cs324.Shell.ArgumentForms

namespace Cs324.Shell
set_option autoImplicit true

/-- What can happen next while `do_bgfg` runs: its next statement, or the handler reports on the
child that is continued. -/
inductive Turn
  | stmt
  | report (report : Report)
  deriving DecidableEq

/-- The statements that come after `do_bgfg` has sent `SIGCONT`. -/
def Pc.continued : Pc → Bool
  | .jidWait _ | .pidState _ _ _ | .pidPrint _ _ | .pidWait _ | .waitfg _ | .sleep _ | .prompt =>
    true
  | _ => false

def Sys.turn (pid : Int) (s : Sys) : Turn → Option Sys
  | .stmt => (stmt s.vars.jobs s.pc).map fun (effect, pc) => { s.perform effect with pc }
  | .report report => if s.pc.continued then some (s.handle pid report) else none

/-- A call of `do_bgfg`, with the reports on the child `pid`. -/
def calling (s : Sys) (pid : Int) (command : Command) (argument : List UInt8) :
    Machine Sys Turn where
  start := { s with pc := .bgfg command (some argument) }
  next := Sys.turn pid

/-- After these turns the call has left the statements of `do_bgfg` behind, with this table. -/
def Leaves (s : Sys) (pid : Int) (command : Command) (argument : List UInt8) (turns : List Turn)
    (jobs : JobTable) : Prop :=
  ∃ t, (calling s pid command argument).exec (calling s pid command argument).start turns =
    some t ∧ t.pc.inBgfg = false ∧ t.vars.jobs = jobs

def Turn.reported : Turn → Option Report
  | .stmt => none
  | .report r => some r

def reports (turns : List Turn) : List Report := turns.filterMap Turn.reported

/-- The reports that come before the statement with this index. -/
def reportsBefore : Nat → List Turn → List Report
  | _, [] => []
  | n, .report report :: turns => report :: reportsBefore n turns
  | n + 1, .stmt :: turns => reportsBefore n turns
  | 0, .stmt :: _ => []

/-- By pid, the lookup and `kill` come first: the reports before `job->state` is set. -/
abbrev early (turns : List Turn) : List Report := reportsBefore 2 turns

/-- A child reports nothing after its end. -/
def EndsLast : List Report → Prop
  | [] => True
  | report :: reports => (report.Ended → reports = []) ∧ EndsLast reports

/-- The table after a child's last report. -/
def outcome (jobs : JobTable) (slot : Fin maxJobs) : Option Report → JobTable
  | none => jobs
  | some (.stopped _) => setState jobs slot .st
  | some (.killed _) | some .exited => Function.update jobs slot (clearjob (jobs slot))

@[simp] theorem reports_stmt (turns : List Turn) : reports (.stmt :: turns) = reports turns := rfl

@[simp] theorem reports_report (report : Report) (turns : List Turn) :
    reports (.report report :: turns) = report :: reports turns := rfl

@[simp] theorem reportsBefore_report (n : Nat) (report : Report) (turns : List Turn) :
    reportsBefore n (.report report :: turns) = report :: reportsBefore n turns := by
  cases n <;> rfl

theorem reportsBefore_eq_nil (n : Nat) (h : reports turns = []) : reportsBefore n turns = [] := by
  induction turns generalizing n with
  | nil => cases n <;> rfl
  | cons turn turns ih =>
    cases turn with
    | stmt =>
      cases n with
      | zero => rfl
      | succ n => exact ih n h
    | report report => cases h

section table
variable (jobs : JobTable) (slot : Fin maxJobs) (state : JobState)

theorem setState_setState (state' : JobState) :
    setState (setState jobs slot state') slot state = setState jobs slot state := by
  simp [setState]

theorem getjobpid_setState (pid : Int) :
    getjobpid (setState jobs slot state) pid = getjobpid jobs pid := by
  simp only [getjobpid, firstWith, setState_pid]

theorem outcome_setState (report : Report) :
    outcome (setState jobs slot state) slot (some report) = outcome jobs slot (some report) := by
  cases report with
  | stopped sig => exact setState_setState jobs slot .st state
  | killed | exited => simp [outcome, setState, clearjob]

/-- After a report, the slot is not in the state that a command gives. -/
theorem outcome_ne (report : Report) (command : Command) (jobs' : JobTable) :
    outcome jobs slot (some report) ≠ setState jobs' slot command.state := by
  intro he
  have hslot := congrArg (fun table => (table slot).state) he
  cases report <;> cases command <;> simp [outcome, setState, clearjob, Command.state] at hslot

end table

theorem getjobpid_outcome (pid : Int) (hr : ¬report.Ended) :
    getjobpid (outcome jobs slot (some report)) pid = getjobpid jobs pid := by
  cases report with
  | stopped sig => exact getjobpid_setState jobs slot .st pid
  | killed | exited => exact absurd trivial hr

/-- What one report does to the table, for a child that has a job. -/
theorem handle_outcome (s : Sys) (h : getjobpid s.vars.jobs pid = some slot) (report : Report) :
    (s.handle pid report).pc = s.pc ∧
      (s.handle pid report).vars.jobs = outcome s.vars.jobs slot (some report) := by
  have hdelete : (deletejob s.vars pid).2.jobs =
      Function.update s.vars.jobs slot (clearjob (s.vars.jobs slot)) := by
    simp only [deletejob, show firstWith Job.pid s.vars.jobs pid = some slot from h]
  cases report with
  | stopped sig => simp only [Sys.handle, h, outcome, and_self]
  | killed sig => exact ⟨rfl, hdelete⟩
  | exited => exact ⟨rfl, hdelete⟩

theorem outcome_getLast (jobs : JobTable) (slot : Fin maxJobs) (hr : ¬report.Ended)
    (reports : List Report) :
    outcome (outcome jobs slot (some report)) slot reports.getLast? =
      outcome jobs slot (report :: reports).getLast? := by
  cases report with
  | killed | exited => exact absurd trivial hr
  | stopped sig =>
    cases reports with
    | nil => rfl
    | cons report reports =>
      rw [List.getLast?_cons_cons]
      rw [List.getLast?_cons]
      exact outcome_setState jobs slot .st _

/-- After `job->state` is set nothing but the handler writes to the table. -/
def Pc.settled : Pc → Bool
  | .jidWait _ | .pidPrint _ _ | .pidWait _ | .waitfg _ | .sleep _ | .prompt => true
  | _ => false

theorem Moves.settled (h : Moves jobs pc effect pc') (hset : pc.settled = true) :
    pc'.settled = true ∧ ∀ s : Sys, (s.perform effect).vars = s.vars := by
  cases h <;> first | exact ⟨rfl, fun _ => rfl⟩ | cases hset

section runs
variable {s₀ : Sys} {pid : Int} {argument : List UInt8}

theorem exec_stmt {s t : Sys}
    (h : (calling s₀ pid command argument).exec s (.stmt :: turns) = some t) :
    ∃ effect pc, stmt s.vars.jobs s.pc = some (effect, pc) ∧
      (calling s₀ pid command argument).exec { s.perform effect with pc } turns = some t := by
  rw [Machine.exec_cons, Option.bind_eq_some_iff] at h
  obtain ⟨u, hu, h⟩ := h
  obtain ⟨⟨effect, pc⟩, hstmt, rfl⟩ := Option.map_eq_some_iff.1 hu
  exact ⟨effect, pc, hstmt, h⟩

theorem exec_report {s t : Sys}
    (h : (calling s₀ pid command argument).exec s (.report report :: turns) = some t) :
    s.pc.continued = true ∧
      (calling s₀ pid command argument).exec (s.handle pid report) turns = some t := by
  rw [Machine.exec_cons, Option.bind_eq_some_iff] at h
  obtain ⟨u, hu, h⟩ := h
  obtain ⟨hc, hu⟩ := Option.ite_none_right_eq_some.1 hu
  cases hu
  exact ⟨hc, h⟩

theorem exec_quiet {s t : Sys} (hset : s.pc.settled = true) (hr : reports turns = [])
    (h : (calling s₀ pid command argument).exec s turns = some t) : t.vars = s.vars := by
  induction turns generalizing s with
  | nil =>
    cases h
    rfl
  | cons turn turns ih =>
    cases turn with
    | report report => cases hr
    | stmt =>
      obtain ⟨effect, pc, hstmt, h⟩ := exec_stmt h
      obtain ⟨hset', hvars⟩ := (stmt_moves hstmt).settled hset
      exact (ih hset' hr h).trans (hvars s)

theorem exec_settled {s t : Sys} (hset : s.pc.settled = true)
    (hslot : getjobpid s.vars.jobs pid = some slot) (hl : EndsLast (reports turns))
    (h : (calling s₀ pid command argument).exec s turns = some t) :
    t.vars.jobs = outcome s.vars.jobs slot (reports turns).getLast? := by
  induction turns generalizing s with
  | nil =>
    cases h
    rfl
  | cons turn turns ih =>
    cases turn with
    | stmt =>
      obtain ⟨effect, pc, hstmt, h⟩ := exec_stmt h
      obtain ⟨hset', hvars⟩ := (stmt_moves hstmt).settled hset
      have hjobs : (s.perform effect).vars.jobs = s.vars.jobs := congrArg Globals.jobs (hvars s)
      have hrest := ih hset' (hjobs ▸ hslot) hl h
      rwa [hjobs] at hrest
    | report report =>
      obtain ⟨-, h⟩ := exec_report h
      obtain ⟨hpc, hjobs⟩ := handle_outcome s hslot report
      have hset' : (s.handle pid report).pc.settled = true := hpc ▸ hset
      by_cases hr : report.Ended
      · have hnone : reports turns = [] := hl.1 hr
        rw [exec_quiet hset' hnone h, hjobs, reports_report, hnone]
        rfl
      · have hslot' : getjobpid (s.handle pid report).vars.jobs pid = some slot := by
          rw [hjobs, getjobpid_outcome pid hr, hslot]
        rw [ih hset' hslot' hl.2 h, hjobs, reports_report]
        exact outcome_getLast _ _ hr _

/-- Once `job->state` has been set, later reports decide the table; with none left, the state
does. -/
theorem exec_setState {s t : Sys} (hset : s.pc.settled = true)
    (hjobs : s.vars.jobs = setState jobs slot command.state)
    (hslot : getjobpid jobs pid = some slot) (hl : EndsLast (reports turns))
    (h : (calling s₀ pid command argument).exec s turns = some t) :
    (reports turns = [] ∧ t.vars.jobs = setState jobs slot command.state) ∨
      (reports turns ≠ [] ∧ t.vars.jobs = outcome jobs slot (reports turns).getLast?) := by
  have hslot' : getjobpid s.vars.jobs pid = some slot := by rw [hjobs, getjobpid_setState, hslot]
  have htable := exec_settled hset hslot' hl h
  rw [hjobs] at htable
  by_cases hr : reports turns = []
  · rw [hr] at htable
    exact .inl ⟨hr, htable⟩
  · refine .inr ⟨hr, ?_⟩
    rw [List.getLast?_eq_some_getLast hr] at htable ⊢
    rw [htable, outcome_setState]

theorem pidState_sets {s : Sys} (hpc : s.pc = .pidState command slot pid)
    (h : stmt s.vars.jobs s.pc = some (effect, pc)) : pc.settled = true ∧
      (s.perform effect).vars.jobs = setState s.vars.jobs slot command.state := by
  rw [hpc] at h
  cases stmt_moves h <;> exact ⟨rfl, rfl⟩

theorem exec_pidState_quiet {s t : Sys} (hpc : s.pc = .pidState command slot pid)
    (hr : reports turns = [])
    (h : (calling s₀ pid command argument).exec s turns = some t) (ht : t.pc.inBgfg = false) :
    t.vars.jobs = setState s.vars.jobs slot command.state := by
  cases turns with
  | nil =>
    cases h
    rw [hpc] at ht
    cases ht
  | cons turn turns =>
    cases turn with
    | report report => cases hr
    | stmt =>
      obtain ⟨effect, pc, hstmt, h⟩ := exec_stmt h
      obtain ⟨hset, hjobs⟩ := pidState_sets hpc hstmt
      have hquiet : reports turns = [] := hr
      exact (congrArg Globals.jobs (exec_quiet hset hquiet h)).trans hjobs

/-- By pid, a report that comes before `job->state` is set counts only if a later one follows. -/
theorem exec_pidState {s t : Sys} (hpc : s.pc = .pidState command slot pid)
    (hjobs : s.vars.jobs = jobs) (hslot : getjobpid jobs pid = some slot)
    (hl : EndsLast (reports turns))
    (h : (calling s₀ pid command argument).exec s turns = some t) (ht : t.pc.inBgfg = false) :
    (reportsBefore 0 turns = reports turns ∧ t.vars.jobs =
        setState (outcome jobs slot (reports turns).getLast?) slot command.state) ∨
      (reportsBefore 0 turns ≠ reports turns ∧
        t.vars.jobs = outcome jobs slot (reports turns).getLast?) := by
  induction turns generalizing s jobs with
  | nil =>
    subst hjobs
    exact .inl ⟨rfl, exec_pidState_quiet hpc rfl h ht⟩
  | cons turn turns ih =>
    subst hjobs
    cases turn with
    | stmt =>
      obtain ⟨effect, pc, hstmt, h⟩ := exec_stmt h
      obtain ⟨hset, hjobs⟩ := pidState_sets hpc hstmt
      have hrest : EndsLast (reports turns) := hl
      rcases exec_setState (s := { s.perform effect with pc }) hset hjobs hslot hrest h with
        ⟨hr, htable⟩ | ⟨hr, htable⟩
      · refine .inl ⟨hr.symm, ?_⟩
        rw [htable, reports_stmt, hr]
        rfl
      · exact .inr ⟨fun he => hr he.symm, htable⟩
    | report report =>
      obtain ⟨-, h⟩ := exec_report h
      obtain ⟨hpc', hjobs⟩ := handle_outcome s hslot report
      rw [hpc] at hpc'
      rw [reports_report, reportsBefore_report]
      by_cases hr : report.Ended
      · have hnone : reports turns = [] := hl.1 hr
        refine .inl ⟨by rw [hnone, reportsBefore_eq_nil 0 hnone], ?_⟩
        rw [exec_pidState_quiet hpc' hnone h ht, hjobs, hnone]
        rfl
      · have hslot' : getjobpid (s.handle pid report).vars.jobs pid = some slot := by
          rw [hjobs, getjobpid_outcome pid hr, hslot]
        rw [← outcome_getLast s.vars.jobs slot hr, ← hjobs]
        rcases ih hpc' rfl hslot' hl.2 h with ⟨he, htable⟩ | ⟨hne, htable⟩
        · exact .inl ⟨congrArg (report :: ·) he, htable⟩
        · exact .inr ⟨fun he => hne (List.cons.inj he).2, htable⟩

/-- Before `kill` the call cannot be interrupted by a report. -/
theorem exec_forced {s t : Sys} (hpc : s.pc = pc) (hb : pc.inBgfg = true)
    (hc : pc.continued = false)
    (h : (calling s₀ pid command argument).exec s turns = some t) (ht : t.pc.inBgfg = false) :
    ∃ rest effect pc', turns = .stmt :: rest ∧ stmt s.vars.jobs pc = some (effect, pc') ∧
      (calling s₀ pid command argument).exec { s.perform effect with pc := pc' } rest = some t := by
  subst hpc
  cases turns with
  | nil =>
    cases h
    rw [hb] at ht
    cases ht
  | cons turn rest =>
    cases turn with
    | stmt =>
      obtain ⟨effect, pc', hstmt, h⟩ := exec_stmt h
      exact ⟨rest, effect, pc', rfl, hstmt, h⟩
    | report report =>
      rw [(exec_report h).1] at hc
      cases hc

theorem exec_jidCont {s t : Sys} (hpc : s.pc = .jidCont command slot pid)
    (hjobs : s.vars.jobs = setState jobs slot command.state)
    (hslot : getjobpid jobs pid = some slot) (hl : EndsLast (reports turns))
    (h : (calling s₀ pid command argument).exec s turns = some t) (ht : t.pc.inBgfg = false) :
    (reports turns = [] ∧ t.vars.jobs = setState jobs slot command.state) ∨
      (reports turns ≠ [] ∧ t.vars.jobs = outcome jobs slot (reports turns).getLast?) := by
  obtain ⟨rest, effect, pc, rfl, hstmt, h⟩ := exec_forced hpc rfl rfl h ht
  rw [reports_stmt] at hl ⊢
  have hset : pc.settled = true ∧ (s.perform effect).vars = s.vars := by
    cases stmt_moves hstmt <;> exact ⟨rfl, rfl⟩
  exact exec_setState (s := { s.perform effect with pc }) hset.1
    ((congrArg Globals.jobs hset.2).trans hjobs) hslot hl h

/-- By job number, `job->state` is set before any report can come. -/
theorem exec_jidPid {s t : Sys} (hpc : s.pc = .jidPid command jid slot)
    (hjobs : s.vars.jobs = jobs) (hpid : (jobs slot).pid = pid)
    (hslot : getjobpid jobs pid = some slot) (hl : EndsLast (reports turns))
    (h : (calling s₀ pid command argument).exec s turns = some t) (ht : t.pc.inBgfg = false) :
    (reports turns = [] ∧ t.vars.jobs = setState jobs slot command.state) ∨
      (reports turns ≠ [] ∧ t.vars.jobs = outcome jobs slot (reports turns).getLast?) := by
  subst hjobs
  obtain ⟨rest, effect, pc, rfl, hstmt, h⟩ := exec_forced hpc rfl rfl h ht
  cases hstmt
  rw [hpid] at h
  obtain ⟨rest, effect, pc, rfl, hstmt, h⟩ := exec_forced rfl rfl rfl h ht
  cases command with
  | fg =>
    cases hstmt
    simp only [reports_stmt] at hl ⊢
    exact exec_jidCont rfl rfl hslot hl h ht
  | bg =>
    cases hstmt
    obtain ⟨rest, effect, pc, rfl, hstmt, h⟩ := exec_forced rfl rfl rfl h ht
    cases hstmt
    simp only [reports_stmt] at hl ⊢
    exact exec_jidCont rfl rfl hslot hl h ht

end runs

theorem decimal_argument {n : Int} (h1 : 1 ≤ n) (h2 : n ≤ intMax) :
    IsNumeral (decimal n) ∧ atoi (decimal n) = n := by
  obtain ⟨k, rfl⟩ : ∃ k : Nat, n = k := Int.eq_ofNat_of_zero_le (by omega)
  obtain ⟨hn, hd⟩ := decimal_numeral k
  have hr : digits (decimal k) ≤ intMax := by rw [hd]; exact h2
  exact ⟨hn, (atoi_inRange hn hr).trans hd⟩

theorem leaves_jid (hw : WellNumbered s.vars.jobs) (ho : Occupied s.vars.jobs slot)
    (h : Leaves s (s.vars.jobs slot).pid command
      (37 :: decimal (s.vars.jobs slot).jid ++ 0 :: more) turns jobs)
    (hl : EndsLast (reports turns)) :
    (reports turns = [] ∧ jobs = setState s.vars.jobs slot command.state) ∨
      (reports turns ≠ [] ∧ jobs = outcome s.vars.jobs slot (reports turns).getLast?) := by
  obtain ⟨t, h, ht, rfl⟩ := h
  obtain ⟨h1, h2⟩ := hw.jid slot ho
  obtain ⟨hn, hatoi⟩ := decimal_argument h1 h2
  have hlookup : getjobjid s.vars.jobs (atoi (decimal (s.vars.jobs slot).jid)) = some slot := by
    rw [hatoi, hw.cleared.getjobjid hw.jids ho h1]
  have hslot := Distinct.getjobpid hw.pids (hw.pid slot ho).1
  obtain ⟨rest, effect, pc, rfl, hstmt, h⟩ := exec_forced rfl rfl rfl h ht
  have hfirst : bgfgLookup s.vars.jobs command _ = (effect, pc) := Option.some.inj hstmt
  rw [bgfgLookup_jid command more hlookup] at hfirst
  cases hfirst
  simp only [reports_stmt] at hl ⊢
  exact exec_jidPid
    (s := { s with pc := .jidPid command (atoi (decimal (s.vars.jobs slot).jid)) slot })
    rfl rfl rfl hslot hl h ht

theorem leaves_pid (hw : WellNumbered s.vars.jobs) (ho : Occupied s.vars.jobs slot)
    (hp : 10 ≤ (s.vars.jobs slot).pid)
    (h : Leaves s (s.vars.jobs slot).pid command
      (decimal (s.vars.jobs slot).pid ++ 0 :: more) turns jobs)
    (hl : EndsLast (reports turns)) :
    (early turns = reports turns ∧ jobs =
        setState (outcome s.vars.jobs slot (reports turns).getLast?) slot command.state) ∨
      (early turns ≠ reports turns ∧
        jobs = outcome s.vars.jobs slot (reports turns).getLast?) := by
  obtain ⟨t, h, ht, rfl⟩ := h
  obtain ⟨h1, h2⟩ := hw.pid slot ho
  obtain ⟨hn, hatoi⟩ := decimal_argument h1 h2
  have hslot := Distinct.getjobpid hw.pids h1
  have hlookup : getjobpid s.vars.jobs (atoi (decimal (s.vars.jobs slot).pid)) = some slot := by
    rw [hatoi, hslot]
  have hlen : 2 ≤ (decimal (s.vars.jobs slot).pid).length := by
    obtain ⟨k, hk⟩ : ∃ k : Nat, (s.vars.jobs slot).pid = k := Int.eq_ofNat_of_zero_le (by omega)
    rw [hk]
    exact decimal_length (by omega)
  obtain ⟨rest, effect, pc, rfl, hstmt, h⟩ := exec_forced rfl rfl rfl h ht
  have hfirst : bgfgLookup s.vars.jobs command _ = (effect, pc) := Option.some.inj hstmt
  rw [bgfgLookup_pid command (hn.not_mem rfl)
    (fun he => hn.not_mem rfl (List.mem_of_head? he)) ((second_digit hn more).2 hlen)
    hlookup] at hfirst
  cases hfirst
  rw [hatoi] at h
  obtain ⟨rest, effect, pc, rfl, hstmt, h⟩ := exec_forced rfl rfl rfl h ht
  cases hstmt
  simp only [reports_stmt] at hl ⊢
  refine exec_pidState ?_ ?_ hslot hl h ht <;> rfl

/-- By job number and by pid the table becomes the same exactly when, by pid, the reports do not
all come before `job->state` is set. -/
theorem fg_bg_same_iff (s : Sys) (command : Command) (slot : Fin maxJobs) (more more' : List UInt8)
    (byJid byPid : List Turn) (jobs jobs' : JobTable)
    (hw : WellNumbered s.vars.jobs) (ho : Occupied s.vars.jobs slot)
    (hp : 10 ≤ (s.vars.jobs slot).pid)
    (hjid : Leaves s (s.vars.jobs slot).pid command
      (37 :: decimal (s.vars.jobs slot).jid ++ 0 :: more) byJid jobs)
    (hpid : Leaves s (s.vars.jobs slot).pid command
      (decimal (s.vars.jobs slot).pid ++ 0 :: more') byPid jobs')
    (hsame : reports byJid = reports byPid) (hl : EndsLast (reports byPid)) :
    jobs = jobs' ↔ early byPid = [] ∨ early byPid ≠ reports byPid := by
  have hjobs := leaves_jid hw ho hjid (hsame ▸ hl)
  rw [hsame] at hjobs
  rcases leaves_pid hw ho hp hpid hl with ⟨he, rfl⟩ | ⟨he, rfl⟩
  · rw [he]
    rcases hjobs with ⟨hr, rfl⟩ | ⟨hr, rfl⟩
    · rw [hr]
      exact iff_of_true rfl (.inl rfl)
    · rw [List.getLast?_eq_some_getLast hr]
      exact iff_of_false (outcome_ne _ _ _ _ _) (by simp [hr])
  · rcases hjobs with ⟨hr, -⟩ | ⟨-, rfl⟩
    · exact absurd ((reportsBefore_eq_nil 2 hr).trans hr.symm) he
    · exact iff_of_true rfl (.inr he)

theorem exists_leaves (s : Sys) (pid : Int) (command : Command) (argument : List UInt8)
    (turns : List Turn) (state : JobState)
    (h : (((calling s pid command argument).exec (calling s pid command argument).start turns).map
      fun t => decide (t.pc.inBgfg = false ∧ (t.vars.jobs 0).state = state)) = some true) :
    ∃ jobs, Leaves s pid command argument turns jobs ∧ (jobs 0).state = state := by
  obtain ⟨t, ht, hpc, hstate⟩ := (calling s pid command argument).exists_of_exec turns h
  exact ⟨t.vars.jobs, ⟨t, ht, hpc, rfl⟩, hstate⟩

/-- `bg %1`, and then the child stops again. -/
def stopByJid : List Turn := [.stmt, .stmt, .stmt, .stmt, .stmt, .report (.stopped 20)]

/-- `bg 100`, and the child stops after the last statement. -/
def stopLate : List Turn := [.stmt, .stmt, .stmt, .stmt, .report (.stopped 20)]

/-- `bg 100`, and the child stops before `job->state = BG`. -/
def stopEarly : List Turn := [.stmt, .stmt, .report (.stopped 20), .stmt, .stmt]

theorem bg_same_for_late_stop : ∃ jobs jobs' : JobTable,
    Leaves oneStopped 100 .bg (37 :: decimal 1 ++ 0 :: []) stopByJid jobs ∧
    Leaves oneStopped 100 .bg (decimal 100 ++ 0 :: []) stopLate jobs' ∧
    (jobs 0).state = .st ∧ jobs = jobs' := by
  obtain ⟨jobs, hjid, hst⟩ := exists_leaves oneStopped 100 .bg (37 :: decimal 1 ++ 0 :: [])
    stopByJid .st (by decide +kernel)
  obtain ⟨jobs', hpid, -⟩ := exists_leaves oneStopped 100 .bg (decimal 100 ++ 0 :: [])
    stopLate .st (by decide +kernel)
  exact ⟨jobs, jobs', hjid, hpid, hst, (fg_bg_same_iff oneStopped .bg 0 [] [] stopByJid stopLate
    jobs jobs' (by decide +kernel) (by decide) (by decide) hjid hpid rfl
    ⟨fun h => absurd h id, trivial⟩).2 (.inl rfl)⟩

/-- The report that comes too early is forgotten. -/
theorem bg_forgets_early_stop : WellNumbered oneStopped.vars.jobs ∧
    ∃ jobs jobs' : JobTable,
      Leaves oneStopped 100 .bg (37 :: decimal 1 ++ 0 :: []) stopByJid jobs ∧
      Leaves oneStopped 100 .bg (decimal 100 ++ 0 :: []) stopEarly jobs' ∧
      reports stopByJid = reports stopEarly ∧ EndsLast (reports stopEarly) ∧
      (jobs 0).state = .st ∧ (jobs' 0).state = .bg ∧ jobs ≠ jobs' := by
  obtain ⟨jobs, hjid, hst⟩ := exists_leaves oneStopped 100 .bg (37 :: decimal 1 ++ 0 :: [])
    stopByJid .st (by decide +kernel)
  obtain ⟨jobs', hpid, hbg⟩ := exists_leaves oneStopped 100 .bg (decimal 100 ++ 0 :: [])
    stopEarly .bg (by decide +kernel)
  refine ⟨by decide +kernel, jobs, jobs', hjid, hpid, rfl, ⟨fun h => absurd h id, trivial⟩, hst,
    hbg, ?_⟩
  rintro rfl
  rw [hst] at hbg
  cases hbg

end Cs324.Shell
