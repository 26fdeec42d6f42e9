import Cs324.Base.CLib
import Mathlib.Logic.Function.Basic
import Mathlib.Data.Fin.Tuple.Basic

namespace Cs324.Shell
set_option autoImplicit true

abbrev maxJobs : Nat := 16

inductive JobState
  | undef | fg | bg | st
  deriving DecidableEq, Repr

/-- `struct job_t`; the command line is the C string that its array holds. -/
structure Job where
  pid : Int
  pgid : Int
  jid : Int
  state : JobState
  cmdline : List UInt8
  deriving DecidableEq

/-- The array `jobs[MAXJOBS]`; a pointer to a job is an index. -/
abbrev JobTable := Fin maxJobs → Job

/-- The shell's global variables. -/
structure Globals where
  verbose : Bool
  nextjid : Int
  jobs : JobTable

/-- What the shell prints, one constructor for each format string. -/
inductive Output
  | addedJob (jid pid : Int) (cmdline : List UInt8)
  | tooManyJobs
  | jobLine (jid pid : Int) (cmdline : List UInt8)
  | stoppedBy (jid pid sig : Int)
  | terminatedBy (jid pid sig : Int)
  | needsArgument (command : List UInt8)
  | badArgument (command : List UInt8)
  | noSuchJob (argument : List UInt8)
  | noSuchProcess (pid : Int)
  | listedJob (slot : Nat) (job : Job)
  deriving DecidableEq

def JobState.code : JobState → Int
  | .undef => 0
  | .fg => 1
  | .bg => 2
  | .st => 3

/-- The word that `listjobs` prints for a state. -/
def JobState.word (slot : Nat) : JobState → List UInt8
  | .bg => chars "Running "
  | .fg => chars "Foreground "
  | .st => chars "Stopped "
  | .undef => chars "listjobs: Internal error: job[" ++ decimal slot ++ chars "].state=" ++
      decimal JobState.undef.code ++ chars " "

/-- The text of a line, as its format string gives it. -/
def Output.text : Output → List UInt8
  | .addedJob jid pid cmdline =>
    chars "Added job [" ++ decimal jid ++ chars "] " ++ decimal pid ++ chars " " ++ cmdline ++
      chars "\n"
  | .tooManyJobs => chars "Tried to create too many jobs\n"
  | .jobLine jid pid cmdline =>
    chars "[" ++ decimal jid ++ chars "] (" ++ decimal pid ++ chars ") " ++ cmdline
  | .stoppedBy jid pid sig =>
    chars "Job [" ++ decimal jid ++ chars "] (" ++ decimal pid ++ chars ") stopped by signal " ++
      decimal sig ++ chars "\n"
  | .terminatedBy jid pid sig =>
    chars "Job [" ++ decimal jid ++ chars "] (" ++ decimal pid ++
      chars ") terminated by signal " ++ decimal sig ++ chars "\n"
  | .needsArgument command => command ++ chars " command requires PID or %job id argument\n"
  | .badArgument command => command ++ chars ": argument must be a PID or %job id\n"
  | .noSuchJob argument => argument ++ chars ": No such job\n"
  | .noSuchProcess pid => chars "(" ++ decimal pid ++ chars "): No such process\n"
  | .listedJob slot job =>
    chars "[" ++ decimal job.jid ++ chars "] (" ++ decimal job.pid ++ chars ") " ++
      job.state.word slot ++ job.cmdline

/-- `clearjob` leaves the process group as it is. -/
def clearjob (job : Job) : Job := { job with pid := 0, jid := 0, state := .undef, cmdline := [] }

def initjobs (jobs : JobTable) : JobTable := fun i => clearjob (jobs i)

def maxjid (jobs : JobTable) : Int :=
  Fin.foldl maxJobs (fun max i => if (jobs i).jid > max then (jobs i).jid else max) 0

/-- `nextjid++` with the wrap that follows it. -/
def bumpjid (nextjid : Int) : Int :=
  if int32 (nextjid + 1) > maxJobs then 1 else int32 (nextjid + 1)

/-- `addjob` with its return value and what it prints. -/
def addjob (g : Globals) (pid pgid : Int) (state : JobState) (cmdline : List UInt8) :
    Int × Globals × List Output :=
  if pid < 1 then (0, g, [])
  else match Fin.find? fun i => (g.jobs i).pid == 0 with
    | some i =>
      let job : Job := { pid, pgid, jid := g.nextjid, state, cmdline }
      (1, { g with jobs := Function.update g.jobs i job, nextjid := bumpjid g.nextjid },
        if g.verbose then [.addedJob job.jid job.pid job.cmdline] else [])
    | none => (0, g, [.tooManyJobs])

/-- The loop of the lookups: nothing for a key below 1, else the first slot with that key. -/
def firstWith (key : Job → Int) (jobs : JobTable) (k : Int) : Option (Fin maxJobs) :=
  if k < 1 then none else Fin.find? fun i => key (jobs i) == k

def deletejob (g : Globals) (pid : Int) : Int × Globals :=
  match firstWith Job.pid g.jobs pid with
  | some i =>
    let jobs := Function.update g.jobs i (clearjob (g.jobs i))
    (1, { g with jobs, nextjid := int32 (maxjid jobs + 1) })
  | none => (0, g)

/-- The pid of the first slot in state `FG`, 0 if there is none. -/
def fgpid (jobs : JobTable) : Int :=
  match Fin.find? fun i => (jobs i).state == .fg with
  | some i => (jobs i).pid
  | none => 0

def getjobpid (jobs : JobTable) (pid : Int) : Option (Fin maxJobs) := firstWith Job.pid jobs pid

def getjobjid (jobs : JobTable) (jid : Int) : Option (Fin maxJobs) := firstWith Job.jid jobs jid

def pid2jid (jobs : JobTable) (pid : Int) : Int :=
  match firstWith Job.pid jobs pid with
  | some i => (jobs i).jid
  | none => 0

/-- A slot holds a job exactly when its pid is not 0. -/
def Occupied (jobs : JobTable) (i : Fin maxJobs) : Prop := (jobs i).pid ≠ 0

instance (jobs : JobTable) (i : Fin maxJobs) : Decidable (Occupied jobs i) :=
  inferInstanceAs (Decidable (_ ≠ _))

theorem firstWith_eq_some : firstWith key jobs k = some i ↔
    1 ≤ k ∧ key (jobs i) = k ∧ ∀ j < i, key (jobs j) ≠ k := by
  unfold firstWith
  split
  · simp
    omega
  · rw [Fin.find?_eq_some_iff]
    simp only [beq_iff_eq, beq_eq_false_iff_ne]
    exact ⟨fun h => ⟨by omega, h⟩, fun h => h.2⟩

theorem firstWith_eq_none : firstWith key jobs k = none ↔
    1 ≤ k → ∀ i, key (jobs i) ≠ k := by
  unfold firstWith
  split
  · simp
    omega
  · rw [Fin.find?_eq_none_iff]
    simp only [beq_eq_false_iff_ne]
    exact ⟨fun h _ => h, fun h => h (by omega)⟩

theorem firstWith_unique (hk : 1 ≤ key (jobs i))
    (hu : ∀ j, key (jobs j) = key (jobs i) → j = i) : firstWith key jobs (key (jobs i)) = some i :=
  firstWith_eq_some.2 ⟨hk, rfl, fun j hj he => absurd (hu j he) (Fin.ne_of_lt hj)⟩

theorem addjob_cases (g : Globals) (pid pgid : Int) (state : JobState) (cmdline : List UInt8) :
    ((addjob g pid pgid state cmdline).1 = 0 ∧ (addjob g pid pgid state cmdline).2.1 = g ∧
      (1 ≤ pid → ∀ i, Occupied g.jobs i)) ∨
    ∃ i, 1 ≤ pid ∧ ¬Occupied g.jobs i ∧ (∀ j < i, Occupied g.jobs j) ∧
      (addjob g pid pgid state cmdline).1 = 1 ∧
      (addjob g pid pgid state cmdline).2.1 =
        { g with
          jobs := Function.update g.jobs i ⟨pid, pgid, g.nextjid, state, cmdline⟩
          nextjid := bumpjid g.nextjid } := by
  unfold addjob
  by_cases hp : pid < 1
  · rw [if_pos hp]
    exact .inl ⟨rfl, rfl, fun h => by omega⟩
  · rw [if_neg hp]
    split
    · rename_i i hi
      rw [Fin.find?_eq_some_iff] at hi
      simp only [beq_iff_eq, beq_eq_false_iff_ne] at hi
      exact .inr ⟨i, by omega, not_not.2 hi.1, hi.2, rfl, rfl⟩
    · rename_i hn
      rw [Fin.find?_eq_none_iff] at hn
      simp only [beq_eq_false_iff_ne] at hn
      exact .inl ⟨rfl, rfl, fun _ => hn⟩

theorem deletejob_cases (g : Globals) (pid : Int) :
    ((deletejob g pid).2 = g ∧ (1 ≤ pid → ∀ i, (g.jobs i).pid ≠ pid)) ∨
    ∃ i, 1 ≤ pid ∧ (g.jobs i).pid = pid ∧ (∀ j < i, (g.jobs j).pid ≠ pid) ∧
      (deletejob g pid).2 =
        { g with
          jobs := Function.update g.jobs i (clearjob (g.jobs i))
          nextjid := int32 (maxjid (Function.update g.jobs i (clearjob (g.jobs i))) + 1) } := by
  unfold deletejob
  split
  · rename_i i hi
    obtain ⟨hk, hi, hj⟩ := firstWith_eq_some.1 hi
    exact .inr ⟨i, hk, hi, hj, rfl⟩
  · rename_i hn
    exact .inl ⟨rfl, firstWith_eq_none.1 hn⟩

theorem fgpid_cases (jobs : JobTable) :
    (∃ i, (jobs i).state = .fg ∧ (∀ j < i, (jobs j).state ≠ .fg) ∧ fgpid jobs = (jobs i).pid) ∨
    (∀ i, (jobs i).state ≠ .fg) ∧ fgpid jobs = 0 := by
  unfold fgpid
  split
  · rename_i i hi
    rw [Fin.find?_eq_some_iff] at hi
    simp only [beq_iff_eq, beq_eq_false_iff_ne] at hi
    exact .inl ⟨i, hi.1, hi.2, rfl⟩
  · rename_i hn
    rw [Fin.find?_eq_none_iff] at hn
    simp only [beq_eq_false_iff_ne] at hn
    exact .inr ⟨hn, rfl⟩

/-- A key tells the jobs in the table apart. -/
def TellsApart (key : Job → Int) (jobs : JobTable) : Prop :=
  ∀ i j, Occupied jobs i → Occupied jobs j → key (jobs i) = key (jobs j) → i = j

theorem TellsApart.fill (h : TellsApart key jobs)
    (hn : ∀ j, Occupied jobs j → key (jobs j) ≠ key job) :
    TellsApart key (Function.update jobs i job) := by
  intro j k hj hk he
  by_cases hji : j = i <;> by_cases hki : k = i
  · rw [hji, hki]
  · subst hji
    simp only [Occupied, Function.update_self, Function.update_of_ne hki] at hk he
    exact absurd he.symm (hn k hk)
  · subst hki
    simp only [Occupied, Function.update_self, Function.update_of_ne hji] at hj he
    exact absurd he (hn j hj)
  · simp only [Occupied, Function.update_of_ne hji, Function.update_of_ne hki] at hj hk he
    exact h j k hj hk he

theorem occupied_of_clear (h : Occupied (Function.update jobs i (clearjob (jobs i))) j) :
    j ≠ i ∧ Occupied jobs j := by
  by_cases he : j = i
  · subst he
    simp [Occupied, clearjob] at h
  · exact ⟨he, by simpa only [Occupied, Function.update_of_ne he] using h⟩

theorem TellsApart.clear (h : TellsApart key jobs) (i : Fin maxJobs) :
    TellsApart key (Function.update jobs i (clearjob (jobs i))) := by
  intro j k hj hk he
  obtain ⟨hj', hjo⟩ := occupied_of_clear hj
  obtain ⟨hk', hko⟩ := occupied_of_clear hk
  simp only [Function.update_of_ne hj', Function.update_of_ne hk'] at he
  exact h j k hjo hko he

end Cs324.Shell
