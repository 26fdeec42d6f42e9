import Cs324.Base.Machine
import Cs324.Shell.Jobs

namespace Cs324.Shell
set_option autoImplicit true

inductive TableCall
  | addjob (pid pgid : Int) (state : JobState) (cmdline : List UInt8)
  | deletejob (pid : Int)

def TableCall.apply (g : Globals) : TableCall → Globals
  | .addjob pid pgid state cmdline => (Shell.addjob g pid pgid state cmdline).2.1
  | .deletejob pid => (Shell.deletejob g pid).2

/-- The job table on its own, after `initjobs` over any memory. -/
def tableMachine (verbose : Bool) (memory : JobTable) : Machine Globals TableCall where
  start := ⟨verbose, 1, initjobs memory⟩
  next g c := some (c.apply g)

/-- A job is added under a pid that the table does not hold. -/
def TableCall.Admissible (g : Globals) : TableCall → Prop
  | .addjob pid _ _ _ => 1 ≤ pid ∧ ∀ i, (g.jobs i).pid ≠ pid
  | .deletejob _ => True

/-- Job numbers name jobs: no two jobs share one, and looking a job's number up finds the job. -/
structure NumbersNameJobs (jobs : JobTable) : Prop where
  distinct : ∀ i j, Occupied jobs i → Occupied jobs j → (jobs i).jid = (jobs j).jid → i = j
  lookup : ∀ i, Occupied jobs i → getjobjid jobs (jobs i).jid = some i

instance (g : Globals) (c : TableCall) : Decidable (c.Admissible g) :=
  match c with
  | .addjob pid _ _ _ => inferInstanceAs (Decidable (1 ≤ pid ∧ ∀ i, (g.jobs i).pid ≠ pid))
  | .deletejob _ => inferInstanceAs (Decidable True)

instance (jobs : JobTable) : Decidable (NumbersNameJobs jobs) :=
  decidable_of_iff
    ((∀ i j, Occupied jobs i → Occupied jobs j → (jobs i).jid = (jobs j).jid → i = j) ∧
      ∀ i, Occupied jobs i → getjobjid jobs (jobs i).jid = some i)
    ⟨fun h => ⟨h.1, h.2⟩, fun h => ⟨h.1, h.2⟩⟩

/-- An empty slot carries no job number. -/
def Cleared (jobs : JobTable) : Prop := ∀ i, ¬Occupied jobs i → (jobs i).jid = 0

theorem cleared_initjobs (memory : JobTable) : Cleared (initjobs memory) := fun _ _ => rfl

theorem getjobpid_found (h : getjobpid jobs pid = some slot) :
    Occupied jobs slot ∧ (jobs slot).pid = pid := by
  obtain ⟨hp, he, -⟩ := firstWith_eq_some.1 h
  refine ⟨?_, he⟩
  rw [Occupied, he]
  omega

theorem getjobjid_found (hc : Cleared jobs) (h : getjobjid jobs jid = some slot) :
    Occupied jobs slot ∧ (jobs slot).jid = jid := by
  obtain ⟨hp, he, -⟩ := firstWith_eq_some.1 h
  refine ⟨?_, he⟩
  by_contra hn
  have hz := hc slot hn
  omega

/-- A number that tells its job apart is found in its slot. -/
theorem Cleared.getjobjid (hc : Cleared jobs) (hd : TellsApart Job.jid jobs)
    (ho : Occupied jobs i) (hp : 1 ≤ (jobs i).jid) : getjobjid jobs (jobs i).jid = some i := by
  refine firstWith_unique hp fun j he => ?_
  by_cases hj : Occupied jobs j
  · exact hd j i hj ho he
  · have hz := hc j hj
    omega

theorem Cleared.fill (h : Cleared jobs) (hj : job.pid ≠ 0) :
    Cleared (Function.update jobs i job) := by
  intro j hn
  by_cases he : j = i
  · subst he
    simp [Occupied, hj] at hn
  · simp only [Occupied, Function.update_of_ne he] at hn ⊢
    exact h j hn

theorem Cleared.clear (h : Cleared jobs) :
    Cleared (Function.update jobs i (clearjob (jobs i))) := by
  intro j hn
  by_cases he : j = i
  · subst he
    simp [clearjob]
  · simp only [Occupied, Function.update_of_ne he] at hn ⊢
    exact h j hn

theorem Cleared.apply (h : Cleared g.jobs) (c : TableCall) : Cleared (c.apply g).jobs := by
  cases c with
  | addjob pid pgid state cmdline =>
    rcases addjob_cases g pid pgid state cmdline with ⟨_, he, _⟩ | ⟨i, hp, _, _, _, he⟩
    · rw [TableCall.apply, he]
      exact h
    · rw [TableCall.apply, he]
      exact h.fill (by change pid ≠ 0; omega)
  | deletejob pid =>
    rcases deletejob_cases g pid with ⟨he, _⟩ | ⟨i, _, _, _, he⟩
    · rw [TableCall.apply, he]
      exact h
    · rw [TableCall.apply, he]
      exact h.clear

/-- A lookup finds its job when numbers are distinct and start from 1. -/
theorem numbersNameJobs_iff (hc : Cleared jobs) : NumbersNameJobs jobs ↔
    (∀ i j, Occupied jobs i → Occupied jobs j → (jobs i).jid = (jobs j).jid → i = j) ∧
      ∀ i, Occupied jobs i → 1 ≤ (jobs i).jid := by
  constructor
  · intro h
    exact ⟨h.distinct, fun i hi => (firstWith_eq_some.1 (h.lookup i hi)).1⟩
  · rintro ⟨hd, h1⟩
    exact ⟨hd, fun i hi => hc.getjobjid hd hi (h1 i hi)⟩

theorem NumbersNameJobs.clear (h : NumbersNameJobs jobs) (hc : Cleared jobs) (i : Fin maxJobs) :
    NumbersNameJobs (Function.update jobs i (clearjob (jobs i))) := by
  obtain ⟨hd, h1⟩ := (numbersNameJobs_iff hc).1 h
  have hapart : TellsApart Job.jid jobs := hd
  refine (numbersNameJobs_iff hc.clear).2 ⟨hapart.clear i, fun j hj => ?_⟩
  obtain ⟨hji, hj⟩ := occupied_of_clear hj
  rw [Function.update_of_ne hji]
  exact h1 j hj

/-- Filling an empty slot keeps numbers distinct exactly when its number is not in use. -/
theorem NumbersNameJobs.fill_iff (h : NumbersNameJobs jobs) (hc : Cleared jobs)
    (hi : ¬Occupied jobs i) (hp : job.pid ≠ 0) :
    NumbersNameJobs (Function.update jobs i job) ↔ 1 ≤ job.jid ∧ getjobjid jobs job.jid = none := by
  obtain ⟨hd, h1⟩ := (numbersNameJobs_iff hc).1 h
  rw [numbersNameJobs_iff (hc.fill hp)]
  have hself : Occupied (Function.update jobs i job) i := by simpa [Occupied] using hp
  have hold : ∀ j, Occupied jobs j → j ≠ i := fun j hj he => hi (he ▸ hj)
  constructor
  · rintro ⟨hd', h1'⟩
    have hj1 : 1 ≤ job.jid := by simpa using h1' i hself
    refine ⟨hj1, firstWith_eq_none.2 fun _ j he => ?_⟩
    by_cases hj : Occupied jobs j
    · have hne := hold j hj
      refine hne (hd' j i ?_ hself ?_)
      · simpa only [Occupied, Function.update_of_ne hne] using hj
      · simpa only [Function.update_of_ne hne, Function.update_self] using he
    · have hz := hc j hj
      omega
  · rintro ⟨hj1, hn⟩
    have hfree := firstWith_eq_none.1 hn hj1
    have hapart : TellsApart Job.jid jobs := hd
    refine ⟨hapart.fill fun j _ => hfree j, fun j hj => ?_⟩
    by_cases hji : j = i
    · subst hji
      simpa using hj1
    · simp only [Occupied, Function.update_of_ne hji] at hj ⊢
      exact h1 j hj

/-- The number that an `addjob` with room is about to give is positive and not in use. -/
def TableCall.TakesFreeNumber (g : Globals) : TableCall → Prop
  | .addjob _ _ _ _ =>
    (∃ i, ¬Occupied g.jobs i) → 1 ≤ g.nextjid ∧ getjobjid g.jobs g.nextjid = none
  | .deletejob _ => True

instance (g : Globals) (c : TableCall) : Decidable (c.TakesFreeNumber g) :=
  match c with
  | .addjob _ _ _ _ => inferInstanceAs (Decidable
      ((∃ i, ¬Occupied g.jobs i) → 1 ≤ g.nextjid ∧ getjobjid g.jobs g.nextjid = none))
  | .deletejob _ => inferInstanceAs (Decidable True)

theorem numbersNameJobs_apply_iff (h : NumbersNameJobs g.jobs) (hc : Cleared g.jobs)
    (ha : TableCall.Admissible g c) :
    NumbersNameJobs (c.apply g).jobs ↔ TableCall.TakesFreeNumber g c := by
  cases c with
  | addjob pid pgid state cmdline =>
    obtain ⟨hp, _⟩ := ha
    rcases addjob_cases g pid pgid state cmdline with ⟨_, he, hfull⟩ | ⟨i, _, hi, _, _, he⟩
    · rw [TableCall.apply, he]
      exact iff_of_true h fun ⟨i, hi⟩ => absurd (hfull hp i) hi
    · rw [TableCall.apply, he, h.fill_iff hc hi (by change pid ≠ 0; omega)]
      exact ⟨fun hf _ => hf, fun hf => hf ⟨i, hi⟩⟩
  | deletejob pid =>
    refine iff_of_true ?_ trivial
    rcases deletejob_cases g pid with ⟨he, _⟩ | ⟨i, _, _, _, he⟩
    · rw [TableCall.apply, he]
      exact h
    · rw [TableCall.apply, he]
      exact h.clear hc i

theorem numbersNameJobs_initjobs (memory : JobTable) : NumbersNameJobs (initjobs memory) :=
  ⟨fun _ _ hi => absurd rfl hi, fun _ hi => absurd rfl hi⟩

/-- Along every sequence of calls, numbers name jobs after each call exactly when each `addjob`
takes a free number. -/
theorem numbers_name_jobs_iff (verbose : Bool) (memory : JobTable) (calls : List TableCall)
    (h : (tableMachine verbose memory).Along TableCall.Admissible
      (tableMachine verbose memory).start calls) :
    (tableMachine verbose memory).Along (fun g c => NumbersNameJobs (c.apply g).jobs)
        (tableMachine verbose memory).start calls ↔
      (tableMachine verbose memory).Along TableCall.TakesFreeNumber
        (tableMachine verbose memory).start calls := by
  apply Machine.along_congr (I := fun g => NumbersNameJobs g.jobs ∧ Cleared g.jobs) _ _ _ h
  · intro g c g' hg _ hn he
    cases he
    exact ⟨hn, hg.2.apply c⟩
  · intro g c hg ha
    exact numbersNameJobs_apply_iff hg.1 hg.2 ha
  · exact ⟨numbersNameJobs_initjobs memory, cleared_initjobs memory⟩

def emptyMemory : JobTable := fun _ => ⟨0, 0, 0, .undef, []⟩

def threeCalls : List TableCall :=
  [.addjob 100 0 .bg (chars "./myspin 9 &\n"), .addjob 101 0 .bg (chars "./myspin 8 &\n"),
    .deletejob 100, .addjob 102 0 .fg (chars "./myspin 7\n")]

theorem numbers_name_three_jobs :
    (tableMachine false emptyMemory).Along (fun g c => NumbersNameJobs (c.apply g).jobs)
      (tableMachine false emptyMemory).start threeCalls :=
  (numbers_name_jobs_iff false emptyMemory threeCalls (by decide +kernel)).2 (by decide +kernel)

/-- Fifteen jobs, the end of the second one, and two more jobs. -/
def wrapCalls : List TableCall :=
  (List.range 15).map (fun n => .addjob (100 + n) 0 .bg (chars "./myspin 9 &\n")) ++
    [.deletejob 101, .addjob 200 0 .bg (chars "./myspin 8 &\n"),
      .addjob 201 0 .bg (chars "./myspin 7 &\n")]

/-- The number 16 makes `nextjid` wrap to 1 while the first job still runs, and the last
`addjob` gives 1 again. -/
theorem job_number_given_twice :
    (tableMachine false emptyMemory).Along TableCall.Admissible
        (tableMachine false emptyMemory).start wrapCalls ∧
      ¬(tableMachine false emptyMemory).Along (fun g c => NumbersNameJobs (c.apply g).jobs)
        (tableMachine false emptyMemory).start wrapCalls := by
  decide +kernel

end Cs324.Shell
