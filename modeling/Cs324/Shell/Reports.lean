import Cs324.Shell.Waiting

namespace Cs324.Shell
set_option autoImplicit true

/-- What `addjob` has stored under a pid. -/
structure Stored where
  jid : Int
  cmdline : List UInt8
  deriving DecidableEq

/-- A report shows the number, which is not 0, and the command line of the job. -/
def Accurate (stored : Int → Option Stored) : Output → Prop
  | .jobLine jid pid cmdline => jid ≠ 0 ∧ stored pid = some ⟨jid, cmdline⟩
  | .stoppedBy jid pid _ | .terminatedBy jid pid _ =>
    jid ≠ 0 ∧ ∃ cmdline, stored pid = some ⟨jid, cmdline⟩
  | _ => True

/-- The shell, with what `addjob` has stored under each pid when it last succeeded for it, and the
lines that have been printed, each with what was stored then. -/
structure Traced where
  sys : Sys
  stored : Int → Option Stored
  shown : List (Output × (Int → Option Stored))

def stores (stored : Int → Option Stored) (s : Sys) (a : Action) : Int → Option Stored :=
  match a, s.pc with
  | .stmt, .addjob bg cmdline cpid =>
    if (addjob s.vars cpid 0 (if bg then .bg else .fg) cmdline).1 = 1 then
      Function.update stored cpid (some ⟨s.vars.nextjid, cmdline⟩)
    else stored
  | _, _ => stored

def Event.output : Event → Option Output
  | .printed output => some output
  | _ => none

/-- The lines that a step adds to the log. -/
def newOutputs (log log' : List Event) : List Output :=
  (log'.take (log'.length - log.length)).filterMap Event.output

def Traced.next (s : Traced) (a : Action) : Option Traced :=
  (s.sys.next a).map fun t =>
    { sys := t
      stored := stores s.stored s.sys a
      shown := (newOutputs s.sys.log t.log).map (·, s.stored) ++ s.shown }

def tracedShell (verbose : Bool) (memory : JobTable) : Machine Traced Action where
  start := ⟨(shell verbose memory).start, fun _ => none, []⟩
  next := Traced.next

/-- The child that `eval` or `bg` is about to print a line on. -/
def Pc.lineDue (jobs : JobTable) : Pc → Option Int
  | .announce _ cpid => some cpid
  | .jidPid .bg _ slot | .jidState .bg _ slot _ | .jidPrint _ slot _ | .pidCont .bg slot _
  | .pidState .bg slot _ | .pidPrint slot _ => some (jobs slot).pid
  | _ => none

/-- The end of a child is not reported while a line on it is due. -/
def LineFirst (s : Sys) : Action → Prop
  | .report pid => s.pc.lineDue s.vars.jobs = some pid → ¬(s.status pid).Ended
  | _ => True

instance (s : Sys) : (a : Action) → Decidable (LineFirst s a)
  | .report pid =>
    inferInstanceAs (Decidable (s.pc.lineDue s.vars.jobs = some pid → ¬(s.status pid).Ended))
  | .line _ | .eof | .stmt | .fork _ | .fail | .deliver | .handled | .sigint | .sigtstp | .sigquit
  | .stop _ _ | .resume _ | .exit _ _ | .kill _ _ | .sigchld => .isTrue trivial

section numbers

/-- How many slots hold a job. -/
def jobCount (jobs : JobTable) : Nat := (Finset.univ.filter fun i => Occupied jobs i).card

/-- Numbers that have come past the largest `int` start again from the smallest one, and get back
to 0 only after more jobs than the table holds. -/
structure Numbered (g : Globals) : Prop where
  jid : ∀ i, Occupied g.jobs i → (g.jobs i).jid ≠ 0
  jidMax : ∀ i, (g.jobs i).jid ≤ 2147483647
  nextMin : -2147483648 ≤ g.nextjid
  nextMax : g.nextjid ≤ 2147483647
  next : 1 ≤ g.nextjid ∨ g.nextjid ≤ -2147483648 + jobCount g.jobs

theorem jobCount_le (jobs : JobTable) : jobCount jobs ≤ maxJobs := by
  have hle := Finset.card_filter_le (Finset.univ : Finset (Fin maxJobs)) (Occupied jobs ·)
  rwa [Finset.card_univ, Fintype.card_fin] at hle

theorem jobCount_fill (hi : ¬Occupied jobs i) (hp : job.pid ≠ 0) :
    jobCount (Function.update jobs i job) = jobCount jobs + 1 := by
  have hset : (Finset.univ.filter fun j => Occupied (Function.update jobs i job) j) =
      insert i (Finset.univ.filter fun j => Occupied jobs j) := by
    ext j
    simp only [Finset.mem_filter, Finset.mem_univ, true_and, Finset.mem_insert]
    by_cases he : j = i
    · subst he
      exact iff_of_true (by simpa [Occupied] using hp) (.inl rfl)
    · simp [Occupied, he]
  have hnew : i ∉ Finset.univ.filter fun j => Occupied jobs j := by
    simp only [Finset.mem_filter, Finset.mem_univ, true_and]
    exact hi
  rw [jobCount, hset, Finset.card_insert_of_notMem hnew]
  rfl

theorem maxjid_bounds (h : ∀ i, (jobs i).jid ≤ 2147483647) :
    0 ≤ maxjid jobs ∧ maxjid jobs ≤ 2147483647 := by
  rw [maxjid, Fin.foldl_eq_finRange_foldl]
  apply List.foldlRecOn (motive := fun max : Int => 0 ≤ max ∧ max ≤ 2147483647)
  · decide
  · intro max hmax i _
    have hi := h i
    split <;> omega

theorem bumpjid_bounds (h1 : -2147483648 ≤ n) (h2 : n ≤ 2147483647) :
    -2147483648 ≤ bumpjid n ∧ bumpjid n ≤ 2147483647 ∧
      (1 ≤ n → 1 ≤ bumpjid n ∨ bumpjid n = -2147483648) ∧ (n < 0 → bumpjid n = n + 1) := by
  unfold bumpjid int32
  simp only [maxJobs]
  split <;> omega

theorem Numbered.addjob (h : Numbered g) (pid pgid : Int) (state : JobState)
    (cmdline : List UInt8) : Numbered (addjob g pid pgid state cmdline).2.1 := by
  rcases addjob_cases g pid pgid state cmdline with ⟨_, he, _⟩ | ⟨i, hp, hi, _, _, he⟩
  · rw [he]
    exact h
  · rw [he]
    have hcount := jobCount_le g.jobs
    have hnext := h.next
    have hjid : g.nextjid ≠ 0 := by
      simp only [maxJobs] at hcount
      omega
    obtain ⟨hmin, hmax, hpos, hneg⟩ := bumpjid_bounds h.nextMin h.nextMax
    refine ⟨fun j hj => ?_, fun j => ?_, hmin, hmax, ?_⟩
    · by_cases hji : j = i
      · subst hji
        simpa using hjid
      · simp only [Occupied, Function.update_of_ne hji] at hj ⊢
        exact h.jid j hj
    · by_cases hji : j = i
      · subst hji
        simpa using h.nextMax
      · simpa only [Function.update_of_ne hji] using h.jidMax j
    · have hfill : jobCount (Function.update g.jobs i ⟨pid, pgid, g.nextjid, state, cmdline⟩) =
          jobCount g.jobs + 1 := jobCount_fill hi (by change pid ≠ 0; omega)
      change 1 ≤ bumpjid g.nextjid ∨ bumpjid g.nextjid ≤ -2147483648 + (jobCount _ : Int)
      rw [hfill]
      simp only [maxJobs] at hcount
      omega

theorem Numbered.deletejob (h : Numbered g) (pid : Int) : Numbered (deletejob g pid).2 := by
  rcases deletejob_cases g pid with ⟨he, _⟩ | ⟨i, _, _, _, he⟩
  · rw [he]
    exact h
  · rw [he]
    have hjidMax (j : Fin maxJobs) :
        (Function.update g.jobs i (clearjob (g.jobs i)) j).jid ≤ 2147483647 := by
      by_cases hji : j = i
      · subst hji
        simp [clearjob]
      · simpa only [Function.update_of_ne hji] using h.jidMax j
    obtain ⟨hmin, hmax⟩ := maxjid_bounds hjidMax
    refine ⟨fun j hj => ?_, hjidMax, ?_, ?_, ?_⟩
    · obtain ⟨hji, hj⟩ := occupied_of_clear hj
      simpa only [Function.update_of_ne hji] using h.jid j hj
    all_goals
      simp only [int32]
      omega

theorem Numbered.restated (h : Numbered g) (slot : Fin maxJobs) (state : JobState) :
    Numbered { g with jobs := setState g.jobs slot state } := by
  have hcount : jobCount (setState g.jobs slot state) = jobCount g.jobs := by
    refine congrArg Finset.card (Finset.filter_congr fun i _ => ?_)
    rw [Occupied, setState_pid, Occupied]
  refine ⟨fun i hi => ?_, fun i => ?_, h.nextMin, h.nextMax, ?_⟩
  · simp only [Occupied, setState_pid, setState_jid] at hi ⊢
    exact h.jid i hi
  · simpa only [setState_jid] using h.jidMax i
  · change 1 ≤ g.nextjid ∨ g.nextjid ≤ -2147483648 + (jobCount (setState _ _ _) : Int)
    rw [hcount]
    exact h.next

end numbers

/-- What reports show of a job. -/
structure SameJob (job job' : Job) : Prop where
  pid : job.pid = job'.pid
  jid : job.jid = job'.jid
  cmdline : job.cmdline = job'.cmdline

theorem setState_same (jobs : JobTable) (slot : Fin maxJobs) (state : JobState) (i : Fin maxJobs) :
    SameJob (setState jobs slot state i) (jobs i) := by
  by_cases he : i = slot
  · subst he
    simp only [setState, Function.update_self]
    exact ⟨rfl, rfl, rfl⟩
  · simp only [setState, Function.update_of_ne he]
    exact ⟨rfl, rfl, rfl⟩

/-- A job that the handler leaves in the table is the one that was there. -/
theorem handle_same {s : Sys} (ho : Occupied (s.handle pid report).vars.jobs i) :
    SameJob ((s.handle pid report).vars.jobs i) (s.vars.jobs i) := by
  rcases handle_cases s pid report with ⟨_, _, he⟩ | ⟨_, slot, _, _, _, he⟩ | ⟨_, _, he⟩
  · rw [he] at ho ⊢
    rcases deletejob_cases s.vars pid with ⟨hh, _⟩ | ⟨k, _, _, _, hh⟩
    · rw [hh]
      exact ⟨rfl, rfl, rfl⟩
    · rw [hh] at ho ⊢
      obtain ⟨hik, -⟩ := occupied_of_clear ho
      simp only [Function.update_of_ne hik]
      exact ⟨rfl, rfl, rfl⟩
  · rw [he]
    exact setState_same _ _ _ _
  · rw [he]
    exact ⟨rfl, rfl, rfl⟩

/-- Each job is stored under its pid with its number and its command line. -/
def Recorded (stored : Int → Option Stored) (jobs : JobTable) : Prop :=
  ∀ i, Occupied jobs i → stored (jobs i).pid = some ⟨(jobs i).jid, (jobs i).cmdline⟩

theorem Recorded.restated (h : Recorded stored jobs)
    (hsame : ∀ i, Occupied jobs' i → SameJob (jobs' i) (jobs i)) : Recorded stored jobs' := by
  intro i hi
  obtain ⟨hpid, hjid, hcmdline⟩ := hsame i hi
  rw [Occupied, hpid] at hi
  rw [hpid, hjid, hcmdline]
  exact h i hi

theorem Recorded.fill (h : Recorded stored jobs) (hn : job.pid ∉ pids jobs) :
    Recorded (Function.update stored job.pid (some ⟨job.jid, job.cmdline⟩))
      (Function.update jobs i job) := by
  intro j hj
  by_cases hji : j = i
  · subst hji
    simp only [Function.update_self]
  · simp only [Occupied, Function.update_of_ne hji] at hj ⊢
    have hne : (jobs j).pid ≠ job.pid := fun he => hn (he ▸ mem_pids hj)
    rw [Function.update_of_ne hne]
    exact h j hj

/-- What the statements up to a line rely on. -/
def Pc.Tells (jobs : JobTable) : Pc → Prop
  | .unblock true cmdline cpid | .announce cmdline cpid =>
    ∃ i, Occupied jobs i ∧ (jobs i).pid = cpid ∧ (jobs i).cmdline = cmdline
  | .jidPid .bg jid slot => Occupied jobs slot ∧ (jobs slot).jid = jid
  | .jidState .bg jid slot pid | .jidPrint jid slot pid =>
    Occupied jobs slot ∧ (jobs slot).jid = jid ∧ (jobs slot).pid = pid
  | .pidCont .bg slot pid | .pidState .bg slot pid | .pidPrint slot pid =>
    Occupied jobs slot ∧ (jobs slot).pid = pid
  | _ => True

theorem Pc.Tells.congr (h : Pc.Tells jobs pc) (hm : pc.masked = false)
    (hkeep : ∀ i, Occupied jobs i → pc.lineDue jobs = some (jobs i).pid →
      Occupied jobs' i ∧ SameJob (jobs' i) (jobs i)) : pc.Tells jobs' := by
  have hslot (slot : Fin maxJobs) (ho : Occupied jobs slot)
      (hdue : pc.lineDue jobs = some (jobs slot).pid) : Occupied jobs' slot ∧
        (jobs' slot).jid = (jobs slot).jid ∧ (jobs' slot).pid = (jobs slot).pid :=
    ⟨(hkeep slot ho hdue).1, (hkeep slot ho hdue).2.jid, (hkeep slot ho hdue).2.pid⟩
  cases pc with
  | unblock => cases hm
  | announce cmdline cpid =>
    obtain ⟨i, ho, rfl, rfl⟩ := h
    obtain ⟨ho', hsame⟩ := hkeep i ho rfl
    exact ⟨i, ho', hsame.pid, hsame.cmdline⟩
  | jidPid command jid slot =>
    cases command
    · trivial
    · obtain ⟨ho, rfl⟩ := h
      obtain ⟨ho', hjid, -⟩ := hslot slot ho rfl
      exact ⟨ho', hjid⟩
  | jidState command jid slot pid =>
    cases command
    · trivial
    · obtain ⟨ho, rfl, rfl⟩ := h
      exact hslot slot ho rfl
  | jidPrint jid slot pid =>
    obtain ⟨ho, rfl, rfl⟩ := h
    exact hslot slot ho rfl
  | pidCont command slot pid | pidState command slot pid =>
    cases command
    · trivial
    · obtain ⟨ho, rfl⟩ := h
      obtain ⟨ho', -, hpid⟩ := hslot slot ho rfl
      exact ⟨ho', hpid⟩
  | pidPrint slot pid =>
    obtain ⟨ho, rfl⟩ := h
    obtain ⟨ho', -, hpid⟩ := hslot slot ho rfl
    exact ⟨ho', hpid⟩
  | _ => trivial

structure Faithful (stored : Int → Option Stored) (s : Sys) : Prop where
  cleared : Cleared s.vars.jobs
  numbered : Numbered s.vars
  recorded : Recorded stored s.vars.jobs
  tells : s.pc.Tells s.vars.jobs

theorem Faithful.moved (h : Faithful stored s) (hvars : t.vars = s.vars)
    (hpc : t.pc.Tells s.vars.jobs) : Faithful stored t := by
  obtain ⟨hcleared, hnumbered, hrecorded, -⟩ := h
  rw [← hvars] at hcleared hnumbered hrecorded hpc
  exact ⟨hcleared, hnumbered, hrecorded, hpc⟩

theorem Faithful.restated (h : Faithful stored s)
    (hpc : pc.Tells (Shell.setState s.vars.jobs slot state)) :
    Faithful stored { s with vars.jobs := Shell.setState s.vars.jobs slot state, pc } where
  cleared := h.cleared.setState
  numbered := h.numbered.restated slot state
  recorded := h.recorded.restated fun i _ => setState_same _ _ _ i
  tells := hpc

theorem stores_of_not_adds (stored : Int → Option Stored) (h : s.pc.adds = false) (a : Action) :
    stores stored s a = stored := by
  unfold stores
  split
  next hpc =>
    rw [hpc] at h
    cases h
  next => rfl

theorem stores_of_ne (stored : Int → Option Stored) (s : Sys) (h : a ≠ .stmt) :
    stores stored s a = stored := by
  unfold stores
  split
  next => exact absurd rfl h
  next => rfl

theorem Faithful.added (h : Faithful stored s) (hc : Consistent s)
    (hslot : ∃ i, ¬Occupied s.vars.jobs i) (hpc : s.pc = .addjob bg cmdline cpid) :
    Faithful (stores stored s .stmt) { s.perform
      (.addjob cpid 0 (if bg then .bg else .fg) cmdline) with pc := .unblock bg cmdline cpid } := by
  obtain ⟨hchild, hnew⟩ := hc.newborn cpid (by rw [hpc]; rfl)
  have hpos := hc.positive cpid hchild
  rcases addjob_cases s.vars cpid 0 (if bg then .bg else .fg) cmdline with
    ⟨_, _, hfull⟩ | ⟨i, _, hi, _, hone, he⟩
  · obtain ⟨i, hi⟩ := hslot
    exact absurd (hfull hpos i) hi
  · have hstored : stores stored s .stmt =
        Function.update stored cpid (some ⟨s.vars.nextjid, cmdline⟩) := by
      simp only [stores, hpc, hone, ↓reduceIte]
    have hjob : Occupied (Function.update s.vars.jobs i
        ⟨cpid, 0, s.vars.nextjid, if bg then .bg else .fg, cmdline⟩) i := by
      simp only [Occupied, Function.update_self]
      omega
    refine ⟨h.cleared.apply (.addjob cpid 0 _ cmdline), h.numbered.addjob cpid 0 _ cmdline, ?_, ?_⟩
    · change Recorded _ (addjob s.vars cpid 0 _ cmdline).2.1.jobs
      rw [he, hstored]
      exact h.recorded.fill hnew
    · change Pc.Tells (addjob s.vars cpid 0 _ cmdline).2.1.jobs _
      rw [he]
      cases bg
      · trivial
      · exact ⟨i, hjob, by simp, by simp⟩

theorem Faithful.stmt (h : Faithful stored s) (hc : Consistent s)
    (hslot : s.pc.adds = true → ∃ i, ¬Occupied s.vars.jobs i)
    (hm : Moves s.vars.jobs s.pc effect pc) :
    Faithful (stores stored s .stmt) { s.perform effect with pc } := by
  cases hadds : s.pc.adds with
  | true =>
    have hfree := hslot hadds
    generalize hpc : s.pc = pc₀ at hm hadds
    cases hm with
    | addjob => exact h.added hc hfree hpc
    | _ => cases hadds
  | false =>
    rw [stores_of_not_adds stored hadds]
    have hmoved := fun {t} => h.moved (t := t)
    have hrestated := fun {state slot pc} => @Faithful.restated stored s pc slot state h
    have hold := h.tells
    generalize s.pc = pc₀ at hm hold hadds
    cases hm with
    | addjob => cases hadds
    | unblockBg => exact hmoved rfl hold
    | @byJid jid slot command argument hg =>
      cases command
      · exact hmoved rfl trivial
      · exact hmoved rfl (getjobjid_found h.cleared hg)
    | @byPid pid slot command argument hg =>
      cases command
      · exact hmoved rfl trivial
      · exact hmoved rfl (getjobpid_found hg)
    | @jidPid command jid slot =>
      cases command
      · exact hmoved rfl trivial
      · exact hmoved rfl ⟨hold.1, hold.2, rfl⟩
    | @pidCont command slot pid =>
      cases command
      · exact hmoved rfl trivial
      · exact hmoved rfl hold
    | jidFg | pidFg => exact hrestated trivial
    | jidBg =>
      refine hrestated ?_
      simpa only [Pc.Tells, Occupied, setState_pid, setState_jid] using hold
    | pidBg =>
      refine hrestated ?_
      simpa only [Pc.Tells, Occupied, setState_pid] using hold
    | _ => exact hmoved rfl trivial

theorem Faithful.handle (h : Faithful stored s) (hm : s.pc.masked = false)
    (hr : (s.status pid).report = some report) (hu : LineFirst s (.report pid)) :
    Faithful stored (s.handle pid report) where
  cleared := h.cleared.handle pid report
  numbered := by
    rcases handle_cases s pid report with ⟨_, _, he⟩ | ⟨_, slot, _, _, _, he⟩ | ⟨_, _, he⟩
    · rw [he]
      exact h.numbered.deletejob pid
    · rw [he]
      exact h.numbered.restated slot .st
    · rw [he]
      exact h.numbered
  recorded := h.recorded.restated fun _ hi => handle_same hi
  tells := by
    rcases handle_pc s pid report with hpc | hpc
    · rw [hpc]
      refine h.tells.congr hm fun i ho hdue => ?_
      have hkeep : ((s.handle pid report).vars.jobs i).pid = (s.vars.jobs i).pid := by
        refine handle_keeps fun hend he => ?_
        exact hu (he ▸ hdue) ((ended_of_report hr).2 hend)
      have ho' : Occupied (s.handle pid report).vars.jobs i := by rwa [Occupied, hkeep]
      exact ⟨ho', handle_same ho'⟩
    · rw [hpc]
      trivial

theorem Request.pc_tells (jobs : JobTable) (cmdline : List UInt8) (r : Request) :
    (r.pc cmdline).Tells jobs := by
  cases r <;> trivial

theorem next_stmt (h : Sys.next s .stmt = some t) : ∃ effect pc,
    stmt s.vars.jobs s.pc = some (effect, pc) ∧ t = { s.perform effect with pc } := by
  unfold Sys.next at h
  simp only [Option.ite_none_right_eq_some, Option.ite_none_left_eq_some,
    Option.map_eq_some_iff] at h
  obtain ⟨_, _, ⟨effect, pc⟩, hstmt, rfl⟩ := h
  exact ⟨effect, pc, hstmt, rfl⟩

theorem Faithful.step (h : Faithful stored s) (hc : Consistent s) (hslot : FindsSlot s a)
    (hu : LineFirst s a) (hn : s.next a = some t) : Faithful (stores stored s a) t := by
  by_cases ha : a = .stmt
  · subst ha
    obtain ⟨effect, pc, hstmt, rfl⟩ := next_stmt hn
    exact h.stmt hc (fun hadds => hslot ⟨rfl, hadds⟩) (stmt_moves hstmt)
  · rw [stores_of_ne stored s ha]
    obtain ⟨hl, hs⟩ := next_step hn
    cases hs with
    | line hpc hh => exact h.moved rfl (Request.pc_tells _ _ _)
    | eof | fail | sigquit => exact h.moved rfl trivial
    | stmt hh hm => exact absurd rfl ha
    | fork hpc hp hf => exact h.moved rfl trivial
    | report hh hp hr => exact h.handle ((hc.masked hl).symm.trans (hc.unmasked hh)) hr hu
    | sigint | sigtstp =>
      unfold Sys.forward
      dsimp only
      split
      · exact h.moved rfl h.tells
      · exact h
    | deliver | handled | become | sigchld => exact h.moved rfl h.tells

theorem newOutputs_append (new log : List Event) :
    newOutputs log (new ++ log) = new.filterMap Event.output := by
  rw [newOutputs, List.length_append, Nat.add_sub_cancel, List.take_left]

theorem newOutputs_self (log : List Event) : newOutputs log log = [] := newOutputs_append [] log

theorem newOutputs_cons (e : Event) (log : List Event) :
    newOutputs log (e :: log) = [e].filterMap Event.output := newOutputs_append [e] log

theorem pid2jid_eq (hd : Distinct jobs) (hp : 1 ≤ (jobs i).pid) :
    pid2jid jobs (jobs i).pid = (jobs i).jid := by
  have hfirst : firstWith Job.pid jobs (jobs i).pid = some i := hd.getjobpid hp
  rw [pid2jid, hfirst]

/-- The job in a slot is reported accurately by its number and its command line. -/
theorem Faithful.job (h : Faithful stored s) (ho : Occupied s.vars.jobs i) :
    Accurate stored
      (.jobLine (s.vars.jobs i).jid (s.vars.jobs i).pid (s.vars.jobs i).cmdline) :=
  ⟨h.numbered.jid i ho, h.recorded i ho⟩

theorem bgfgLookup_accurate (stored : Int → Option Stored)
    (h : (bgfgLookup jobs command argument).1 = .print output) : Accurate stored output := by
  unfold bgfgLookup at h
  split at h
  · cases h
    trivial
  · split at h
    · split at h
      · cases h
      · cases h
        trivial
    · split at h
      · split at h
        · cases h
        · cases h
          trivial
      · cases h
        trivial

theorem Faithful.stmt_accurate (h : Faithful stored s) (hc : Consistent s)
    (hs : Shell.stmt s.vars.jobs s.pc = some (.print output, pc)) : Accurate stored output := by
  have htells := h.tells
  generalize s.pc = pc₀ at hs htells
  cases pc₀ with
  | announce cmdline cpid =>
    cases hs
    obtain ⟨i, ho, rfl, rfl⟩ := htells
    rw [pid2jid_eq hc.distinct (hc.positive _ (hc.tracked (mem_pids ho)))]
    exact h.job ho
  | jidPrint jid slot pid =>
    cases hs
    obtain ⟨ho, rfl, rfl⟩ := htells
    exact h.job ho
  | pidPrint slot pid =>
    cases hs
    obtain ⟨ho, rfl⟩ := htells
    exact h.job ho
  | bgfg command argument =>
    have hlookup : (bgfgLookup s.vars.jobs command argument).1 = .print output :=
      congrArg Prod.fst (Option.some.inj hs)
    exact bgfgLookup_accurate stored hlookup
  | listjobs slot =>
    simp only [Shell.stmt] at hs
    split at hs
    · split at hs <;> cases hs
      trivial
    · cases hs
  | _ => cases hs

theorem addjob_accurate (stored : Int → Option Stored)
    (h : output ∈ (addjob g pid pgid state cmdline).2.2) : Accurate stored output := by
  unfold addjob at h
  split at h
  · cases h
  · split at h
    · dsimp only at h
      split at h
      · cases List.mem_singleton.1 h
        trivial
      · cases h
    · cases List.mem_singleton.1 h
      trivial

theorem perform_accurate {stored : Int → Option Stored}
    (hp : ∀ output, effect = .print output → Accurate stored output) (s : Sys) :
    ∀ output ∈ newOutputs s.log (s.perform effect).log, Accurate stored output := by
  intro output ho
  cases effect with
  | print line =>
    rw [Sys.perform, newOutputs_cons] at ho
    cases List.mem_singleton.1 ho
    exact hp _ rfl
  | addjob pid pgid state cmdline =>
    rw [Sys.perform, newOutputs_append, List.filterMap_map] at ho
    obtain ⟨line, hline, he⟩ := List.mem_filterMap.1 ho
    cases he
    exact addjob_accurate stored hline
  | sigcont pid =>
    rw [Sys.perform, newOutputs_cons] at ho
    cases ho
  | nothing | mask | setState =>
    rw [Sys.perform, newOutputs_self] at ho
    cases ho

theorem Faithful.handle_accurate (h : Faithful stored s) (hc : Consistent s)
    (hp : pid ∈ pids s.vars.jobs) (report : Report) :
    ∀ output ∈ newOutputs s.log (s.handle pid report).log, Accurate stored output := by
  obtain ⟨i, ho, rfl⟩ := hp
  have hjid := pid2jid_eq hc.distinct (hc.positive _ (hc.tracked (mem_pids ho)))
  obtain ⟨hne, hstored⟩ := h.job ho
  intro output hout
  cases report with
  | stopped sig =>
    unfold Sys.handle at hout
    dsimp only at hout
    split at hout
    · change output ∈ newOutputs s.log ([.printed _, .reported _ _] ++ s.log) at hout
      rw [newOutputs_append, hjid] at hout
      cases List.mem_singleton.1 hout
      exact ⟨hne, _, hstored⟩
    · rw [newOutputs_cons] at hout
      cases hout
  | killed sig =>
    change output ∈ newOutputs s.log ([.printed _, .reported _ _] ++ s.log) at hout
    rw [newOutputs_append, hjid] at hout
    cases List.mem_singleton.1 hout
    exact ⟨hne, _, hstored⟩
  | exited =>
    rw [Sys.handle, newOutputs_cons] at hout
    cases hout

theorem Faithful.prints (h : Faithful stored s) (hc : Consistent s) (hm : Managed s)
    (hn : s.next a = some t) :
    ∀ output ∈ newOutputs s.log t.log, Accurate stored output := by
  by_cases ha : a = .stmt
  · subst ha
    obtain ⟨effect, pc, hstmt, rfl⟩ := next_stmt hn
    refine perform_accurate (fun output he => ?_) s
    subst he
    exact h.stmt_accurate hc hstmt
  · obtain ⟨hl, hs⟩ := next_step hn
    intro output hout
    cases hs with
    | stmt hh hstmt => exact absurd rfl ha
    | report hh hp hr => exact h.handle_accurate hc (hm.mem_pids hc hl hh hp) _ output hout
    | fork hpc hp hf =>
      rw [newOutputs_cons] at hout
      cases hout
    | sigint | sigtstp =>
      unfold Sys.forward at hout
      dsimp only at hout
      split at hout
      · rw [newOutputs_cons] at hout
        cases hout
      · rw [newOutputs_self] at hout
        cases hout
    | line | eof | fail | sigquit | deliver | handled | sigchld =>
      rw [newOutputs_self] at hout
      cases hout
    | become =>
      rw [Sys.become, newOutputs_self] at hout
      cases hout

theorem traced_sys {ok : Sys → Action → Prop}
    (h : (tracedShell verbose memory).Reach (fun s a => ok s.sys a) s) :
    (shell verbose memory).Reach ok s.sys := by
  apply h.invariant (I := fun s => (shell verbose memory).Reach ok s.sys) .start
  intro t a u _ ht hok hn
  obtain ⟨sys, hsys, rfl⟩ := Option.map_eq_some_iff.1 hn
  exact ht.step hok hsys

theorem faithful_start (verbose : Bool) (memory : JobTable) :
    Faithful (fun _ => none) (shell verbose memory).start where
  cleared := cleared_initjobs memory
  numbered := by
    have hnext : (shell verbose memory).start.vars.nextjid = 1 := rfl
    have hjid (i : Fin maxJobs) : ((shell verbose memory).start.vars.jobs i).jid = 0 := rfl
    refine ⟨fun i hi => absurd rfl hi, fun i => by simp [hjid], ?_, ?_, .inl ?_⟩
    all_goals simp [hnext]
  recorded := fun _ hi => absurd rfl hi
  tells := trivial

/-- In a run with at most as many children as slots, and in which no end of a child is reported
while a line on it is due, every report shows what `addjob` has stored for the child. -/
theorem reports_accurate (h : (tracedShell verbose memory).Reach
      (fun s a => Within s.sys a ∧ LineFirst s.sys a) s) :
    ∀ line ∈ s.shown, Accurate line.2 line.1 := by
  have hinv : Faithful s.stored s.sys ∧ ∀ line ∈ s.shown, Accurate line.2 line.1 := by
    apply h.invariant (I := fun s => Faithful s.stored s.sys ∧
      ∀ line ∈ s.shown, Accurate line.2 line.1)
    · exact ⟨faithful_start verbose memory, fun _ => nofun⟩
    · intro t a u hr ht hok hn
      obtain ⟨sys, hsys, rfl⟩ := Option.map_eq_some_iff.1 hn
      have hwithin : (shell verbose memory).Reach Within t.sys :=
        traced_sys (hr.mono And.left)
      have hc := consistent hwithin.reachable
      have hcomplete := complete hwithin
      have hm : Managed t.sys := ⟨hcomplete.held, hcomplete.alive⟩
      refine ⟨ht.1.step hc (hcomplete.findsSlot hc a) hok.2 hsys, fun line hline => ?_⟩
      rcases List.mem_append.1 hline with hnew | hold
      · obtain ⟨output, hout, rfl⟩ := List.mem_map.1 hnew
        exact ht.1.prints hc hm hsys output hout
      · exact ht.2 line hold
  exact hinv.2

/-- A background job is announced, stops, and is continued by `bg %1`. -/
def announced : List Action :=
  [.line (chars "./myspin 9 &\n"), .stmt, .fork 100, .stmt, .stmt, .stmt, .stmt, .stmt,
    .stop 100 20, .deliver, .report 100, .handled, .line (chars "bg %1\n"), .stmt, .stmt, .stmt,
    .stmt]

theorem reports_accurate_announced : ∃ s : Traced, s.shown.map Prod.fst =
      [.jobLine 1 100 (chars "./myspin 9 &\n"), .stoppedBy 1 100 20,
        .jobLine 1 100 (chars "./myspin 9 &\n")] ∧
    ∀ line ∈ s.shown, Accurate line.2 line.1 := by
  obtain ⟨s, hr, hshown⟩ := Machine.exists_reach_of_exec (tracedShell false emptyMemory)
    (fun s a => Within s.sys a ∧ LineFirst s.sys a) announced
    (P := fun s => s.shown.map Prod.fst =
      [.jobLine 1 100 (chars "./myspin 9 &\n"), .stoppedBy 1 100 20,
        .jobLine 1 100 (chars "./myspin 9 &\n")]) (by decide +kernel) (by decide +kernel)
  exact ⟨s, hshown, reports_accurate hr⟩

/-- A background job ends before `eval` has printed its line. -/
def lateLine : List Action :=
  [.line (chars "./myspin 0 &\n"), .stmt, .fork 100, .stmt, .stmt, .stmt, .exit 100 0, .deliver,
    .report 100, .handled, .stmt]

theorem line_shows_number_zero : ¬∀ s, (tracedShell false emptyMemory).Reach
      (fun s a => Within s.sys a) s → ∀ line ∈ s.shown, Accurate line.2 line.1 := by
  intro haccurate
  obtain ⟨s, hr, hshown⟩ := Machine.exists_reach_of_exec (tracedShell false emptyMemory)
    (fun s a => Within s.sys a) lateLine
    (P := fun s => s.shown.map Prod.fst = [.jobLine 0 100 (chars "./myspin 0 &\n")])
    (by decide +kernel) (by decide +kernel)
  have hmem : Output.jobLine 0 100 (chars "./myspin 0 &\n") ∈ s.shown.map Prod.fst := by
    rw [hshown]
    exact List.mem_singleton_self _
  obtain ⟨line, hline, he⟩ := List.mem_map.1 hmem
  have hline' := haccurate s hr line hline
  rw [he] at hline'
  exact hline'.1 rfl

end Cs324.Shell
