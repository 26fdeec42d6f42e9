import Cs324.Base.Numeral
import Cs324.Shell.JobNumbers
import Cs324.Shell.PidSet
import Cs324.Shell.Steps

namespace Cs324.Shell
set_option autoImplicit true

def intMax : Int := 2147483647

/-- A table whose jobs are told apart by their numbers and by their pids. -/
structure WellNumbered (jobs : JobTable) : Prop where
  cleared : Cleared jobs
  pids : TellsApart Job.pid jobs
  jids : TellsApart Job.jid jobs
  pid : ∀ i, Occupied jobs i → 1 ≤ (jobs i).pid ∧ (jobs i).pid ≤ intMax
  jid : ∀ i, Occupied jobs i → 1 ≤ (jobs i).jid ∧ (jobs i).jid ≤ intMax

instance (jobs : JobTable) : Decidable (WellNumbered jobs) :=
  decidable_of_iff ((∀ i, ¬Occupied jobs i → (jobs i).jid = 0) ∧
      (∀ i j, Occupied jobs i → Occupied jobs j → (jobs i).pid = (jobs j).pid → i = j) ∧
      (∀ i j, Occupied jobs i → Occupied jobs j → (jobs i).jid = (jobs j).jid → i = j) ∧
      (∀ i, Occupied jobs i → 1 ≤ (jobs i).pid ∧ (jobs i).pid ≤ intMax) ∧
      ∀ i, Occupied jobs i → 1 ≤ (jobs i).jid ∧ (jobs i).jid ≤ intMax)
    ⟨fun ⟨h1, h2, h3, h4, h5⟩ => ⟨h1, h2, h3, h4, h5⟩,
      fun h => ⟨h.cleared, h.pids, h.jids, h.pid, h.jid⟩⟩

/-- The statements of `do_bgfg` itself. -/
def Pc.inBgfg : Pc → Bool
  | .bgfg _ _ | .jidPid _ _ _ | .jidState _ _ _ _ | .jidPrint _ _ _ | .jidCont _ _ _ | .jidWait _
  | .pidCont _ _ _ | .pidState _ _ _ | .pidPrint _ _ | .pidWait _ => true
  | _ => false

/-- At most so many statements of `do_bgfg`, with no signal in between. -/
def Sys.runBgfg : Nat → Sys → Sys
  | 0, s => s
  | n + 1, s =>
    if s.pc.inBgfg then
      match stmt s.vars.jobs s.pc with
      | some (effect, pc) => { s.perform effect with pc }.runBgfg n
      | none => s
    else s

/-- A call of `do_bgfg` up to its return or its call of `waitfg`. -/
def Sys.doBgfg (s : Sys) (command : Command) (argument : List UInt8) : Sys :=
  { s with pc := .bgfg command (some argument) }.runBgfg 5

/-- The argument names the job in this slot: a percent sign and its number, or its pid. -/
def Names (jobs : JobTable) (arg : List UInt8) (i : Fin maxJobs) : Prop :=
  Occupied jobs i ∧
    ((∃ numeral, arg = 37 :: numeral ∧ IsNumeral numeral ∧ digits numeral = (jobs i).jid) ∨
      (IsNumeral arg ∧ digits arg = (jobs i).pid))

/-- The message for an argument that names no job. -/
structure Expected (command : Command) (arg : List UInt8) (message : Output) : Prop where
  jid : ∀ numeral, arg = 37 :: numeral → IsNumeral numeral → message = .noSuchJob arg
  pid : IsNumeral arg → message = .noSuchProcess (digits arg)
  other : arg.head? ≠ some 37 → ¬IsNumeral arg → message = .badArgument command.word

/-- From `s` to `t`, exactly the job that the argument names has been sent `SIGCONT`, and if there
is none a message is all that has happened. -/
def AsDocumented (s t : Sys) (command : Command) (arg : List UInt8) : Prop :=
  ∃ events, t.log = events ++ s.log ∧
    (∀ i, Occupied s.vars.jobs i →
      (.continued (s.vars.jobs i).pid ∈ events ↔ Names s.vars.jobs arg i)) ∧
    ((∀ i, ¬Names s.vars.jobs arg i) → t.vars = s.vars ∧
      ∃ message, events = [.printed message] ∧ Expected command arg message)

/-- The arguments that `do_bgfg` understands, given the memory behind the end of the string. -/
def Understood (jobs : JobTable) (arg more : List UInt8) : Prop :=
  match arg with
  | 37 :: number => (IsNumeral number ∧ digits number ≤ intMax) ∨
      ∀ i, Occupied jobs i → (jobs i).jid ≠ atoi number
  | arg => (IsNumeral arg ∧ 2 ≤ arg.length ∧ digits arg ≤ intMax) ∨
      (¬IsNumeral arg ∧ isdigit ((arg ++ 0 :: more).getD 1 0) = false)

theorem understood_jid (jobs : JobTable) (number more : List UInt8) :
    Understood jobs (37 :: number) more ↔ (IsNumeral number ∧ digits number ≤ intMax) ∨
      ∀ i, Occupied jobs i → (jobs i).jid ≠ atoi number := Iff.rfl

theorem understood_pid (h : List.head? arg ≠ some 37) (jobs : JobTable) (more : List UInt8) :
    Understood jobs arg more ↔ (IsNumeral arg ∧ 2 ≤ arg.length ∧ digits arg ≤ intMax) ∨
      (¬IsNumeral arg ∧ isdigit ((arg ++ 0 :: more).getD 1 0) = false) := by
  unfold Understood
  split
  next => exact absurd rfl h
  next => exact Iff.rfl

section doBgfg
variable {s : Sys} {command : Command} {argument : List UInt8}

theorem doBgfg_message
    (h : bgfgLookup s.vars.jobs command (some argument) = (.print message, .prompt)) :
    (s.doBgfg command argument).log = .printed message :: s.log ∧
      (s.doBgfg command argument).vars = s.vars := by
  simp only [Sys.doBgfg, Sys.runBgfg, Pc.inBgfg, stmt, h, ↓reduceIte, Sys.perform,
    Bool.false_eq_true, and_self]

/-- By its number a job is continued once its state has been changed. -/
theorem doBgfg_jid
    (h : bgfgLookup s.vars.jobs command (some argument) = (.nothing, .jidPid command jid slot)) :
    ∃ events, (s.doBgfg command argument).log = events ++ s.log ∧
      ∀ pid, .continued pid ∈ events ↔ pid = (s.vars.jobs slot).pid := by
  cases command with
  | fg =>
    refine ⟨[.continued (s.vars.jobs slot).pid], ?_, fun pid => by simp⟩
    simp only [Sys.doBgfg, Sys.runBgfg, Pc.inBgfg, stmt, h, ↓reduceIte, Sys.perform,
      List.singleton_append]
  | bg =>
    refine ⟨[.continued (s.vars.jobs slot).pid, .printed (.jobLine jid (s.vars.jobs slot).pid
      (setState s.vars.jobs slot .bg slot).cmdline)], ?_, fun pid => by simp⟩
    simp only [Sys.doBgfg, Sys.runBgfg, Pc.inBgfg, stmt, h, ↓reduceIte, Sys.perform,
      Command.state, List.cons_append, List.nil_append]

/-- By its pid it is continued before. -/
theorem doBgfg_pid
    (h : bgfgLookup s.vars.jobs command (some argument) = (.nothing, .pidCont command slot pid)) :
    ∃ events, (s.doBgfg command argument).log = events ++ s.log ∧
      ∀ p, .continued p ∈ events ↔ p = pid := by
  cases command with
  | fg =>
    refine ⟨[.continued pid], ?_, fun p => by simp⟩
    simp only [Sys.doBgfg, Sys.runBgfg, Pc.inBgfg, stmt, h, ↓reduceIte, Sys.perform,
      List.singleton_append, Bool.false_eq_true]
  | bg =>
    refine ⟨[.printed (.jobLine (setState s.vars.jobs slot .bg slot).jid pid
      (setState s.vars.jobs slot .bg slot).cmdline), .continued pid], ?_, fun p => by simp⟩
    simp only [Sys.doBgfg, Sys.runBgfg, Pc.inBgfg, stmt, h, ↓reduceIte, Sys.perform,
      Command.state, List.cons_append, List.nil_append, Bool.false_eq_true]

/-- Five statements bring `do_bgfg` to its return or to `waitfg`. -/
theorem doBgfg_leaves (s : Sys) (command : Command) (argument : List UInt8) :
    (s.doBgfg command argument).pc.inBgfg = false := by
  have hlookup := bgfgLookup_moves s.vars.jobs command (some argument)
  simp only [Sys.doBgfg, Sys.runBgfg, Pc.inBgfg, stmt, ↓reduceIte]
  generalize bgfgLookup s.vars.jobs command (some argument) = next at hlookup
  obtain ⟨effect, pc⟩ := next
  cases hlookup with
  | message => rfl
  | byJid | byPid => cases command <;> rfl

end doBgfg

theorem Names.unique (hw : WellNumbered jobs) (hi : Names jobs arg i) (hj : Names jobs arg j) :
    i = j := by
  have hsign (numeral : List UInt8) (hn : IsNumeral (37 :: numeral)) : False :=
    absurd (hn.2 37 List.mem_cons_self) (by decide)
  obtain ⟨hoi, ⟨numeral, rfl, -, hi⟩ | ⟨hn, hi⟩⟩ := hi
  · obtain ⟨hoj, ⟨numeral', he, -, hj⟩ | ⟨hn, -⟩⟩ := hj
    · cases he
      exact hw.jids i j hoi hoj (hi.symm.trans hj)
    · exact (hsign numeral hn).elim
  · obtain ⟨hoj, ⟨numeral, rfl, -⟩ | ⟨-, hj⟩⟩ := hj
    · exact (hsign numeral hn).elim
    · exact hw.pids i j hoi hoj (hi.symm.trans hj)

/-- A job that is continued has to be the one that the argument names. -/
theorem asDocumented_continued {s t : Sys} (hw : WellNumbered s.vars.jobs)
    (ho : Occupied s.vars.jobs slot)
    (h : ∃ events, t.log = events ++ s.log ∧
      ∀ pid, .continued pid ∈ events ↔ pid = (s.vars.jobs slot).pid) :
    AsDocumented s t command arg ↔ Names s.vars.jobs arg slot := by
  obtain ⟨events, hlog, hevents⟩ := h
  constructor
  · rintro ⟨events', hlog', hnames, -⟩
    cases List.append_cancel_right (hlog.symm.trans hlog')
    exact (hnames slot ho).1 ((hevents _).2 rfl)
  · intro hslot
    refine ⟨events, hlog, fun i hi => ?_, fun hnone => absurd hslot (hnone slot)⟩
    rw [hevents]
    constructor
    · intro he
      rwa [hw.pids i slot hi ho he]
    · intro hi
      rw [hi.unique hw hslot]

/-- A message has to be the one for an argument that names no job. -/
theorem asDocumented_message {s t : Sys}
    (h : t.log = .printed message :: s.log ∧ t.vars = s.vars) :
    AsDocumented s t command arg ↔
      (∀ i, ¬Names s.vars.jobs arg i) ∧ Expected command arg message := by
  obtain ⟨hlog, hvars⟩ := h
  constructor
  · rintro ⟨events, hlog', hnames, hnone⟩
    have hevents : events = [.printed message] :=
      List.append_cancel_right (hlog'.symm.trans hlog)
    subst hevents
    have hno : ∀ i, ¬Names s.vars.jobs arg i := by
      intro i hi
      simpa using (hnames i hi.1).2 hi
    obtain ⟨-, message', he, hexpected⟩ := hnone hno
    cases he
    exact ⟨hno, hexpected⟩
  · rintro ⟨hno, hexpected⟩
    exact ⟨[.printed message], hlog, fun i _ => iff_of_false (by simp) (hno i),
      fun _ => ⟨hvars, message, rfl, hexpected⟩⟩

section lookup
variable {jobs : JobTable} {key : Int}

theorem getjobjid_missing (hw : WellNumbered jobs) (h : getjobjid jobs key = none)
    (ho : Occupied jobs i) : (jobs i).jid ≠ key := by
  rintro rfl
  exact firstWith_eq_none.1 h (hw.jid i ho).1 i rfl

theorem getjobpid_missing (hw : WellNumbered jobs) (h : getjobpid jobs key = none)
    (ho : Occupied jobs i) : (jobs i).pid ≠ key := by
  rintro rfl
  exact firstWith_eq_none.1 h (hw.pid i ho).1 i rfl

end lookup

theorem bgfgLookup_jid (command : Command) (more : List UInt8)
    (h : getjobjid jobs (atoi number) = some slot) :
    bgfgLookup jobs command (some (37 :: number ++ 0 :: more)) =
      (.nothing, .jidPid command (atoi number) slot) := by
  simp [bgfgLookup, atoi_terminated, h]

theorem headD_ne (hp : List.head? arg ≠ some 37) (more : List UInt8) :
    ¬(arg ++ 0 :: more).headD 0 = 37 := by
  cases arg with
  | nil => simp
  | cons c arg => simpa using hp

theorem bgfgLookup_pid (command : Command) (hz : 0 ∉ arg) (hp : arg.head? ≠ some 37)
    (hd : isdigit ((arg ++ 0 :: more).getD 1 0) = true)
    (h : getjobpid jobs (atoi arg) = some slot) :
    bgfgLookup jobs command (some (arg ++ 0 :: more)) =
      (.nothing, .pidCont command slot (atoi arg)) := by
  simp only [bgfgLookup, headD_ne hp more, hd, ↓reduceIte, cstring_terminate, cstring_eq_self hz, h]

theorem names_percent {jobs : JobTable} (number : List UInt8) (i : Fin maxJobs) :
    Names jobs (37 :: number) i ↔
      Occupied jobs i ∧ IsNumeral number ∧ digits number = (jobs i).jid := by
  refine and_congr_right fun _ => ⟨?_, fun h => .inl ⟨number, rfl, h⟩⟩
  rintro (⟨numeral, he, h⟩ | ⟨hn, -⟩)
  · cases he
    exact h
  · exact absurd (hn.2 37 List.mem_cons_self) (by decide)

theorem names_pid {jobs : JobTable} (h : List.head? arg ≠ some 37) (i : Fin maxJobs) :
    Names jobs arg i ↔ Occupied jobs i ∧ IsNumeral arg ∧ digits arg = (jobs i).pid := by
  refine and_congr_right fun _ => ⟨?_, .inr⟩
  rintro (⟨numeral, rfl, -⟩ | hn)
  · exact absurd rfl h
  · exact hn

/-- The arguments that start with a percent sign. -/
theorem percent_iff (hw : WellNumbered s.vars.jobs) (command : Command) (number more : List UInt8)
    (hz : 0 ∉ 37 :: number) :
    AsDocumented s (s.doBgfg command (37 :: number ++ 0 :: more)) command (37 :: number) ↔
      Understood s.vars.jobs (37 :: number) more := by
  rw [understood_jid]
  cases hg : getjobjid s.vars.jobs (atoi number) with
  | some slot =>
    obtain ⟨ho, hjid⟩ := getjobjid_found hw.cleared hg
    rw [asDocumented_continued hw ho (doBgfg_jid (bgfgLookup_jid command more hg)), names_percent]
    constructor
    · rintro ⟨-, hn, he⟩
      exact .inl ⟨hn, he ▸ (hw.jid slot ho).2⟩
    · rintro (⟨hn, hr⟩ | hnone)
      · exact ⟨ho, hn, ((atoi_inRange hn hr).symm.trans hjid.symm)⟩
      · exact absurd hjid (hnone slot ho)
  | none =>
    have hmissing (i : Fin maxJobs) (ho : Occupied s.vars.jobs i) :=
      getjobjid_missing hw hg ho
    have hlookup : bgfgLookup s.vars.jobs command (some (37 :: number ++ 0 :: more)) =
        (.print (.noSuchJob (37 :: number)), .prompt) := by
      have hstring : cstring (37 :: (number ++ 0 :: more)) = 37 :: number :=
        (cstring_terminate (37 :: number) more).trans (cstring_eq_self hz)
      simp [bgfgLookup, atoi_terminated, hg, hstring]
    rw [asDocumented_message (doBgfg_message hlookup)]
    refine iff_of_true ⟨fun i hi => ?_, ?_⟩ (.inr hmissing)
    · obtain ⟨ho, hn, he⟩ := (names_percent number i).1 hi
      have hr : digits number ≤ intMax := he ▸ (hw.jid i ho).2
      exact hmissing i ho (he.symm.trans (atoi_inRange hn hr).symm)
    · exact {
        jid := fun _ _ _ => rfl
        pid := fun hn => absurd (hn.2 37 List.mem_cons_self) (by decide)
        other := fun hne => absurd rfl hne }

theorem second_digit (h : IsNumeral arg) (more : List UInt8) :
    isdigit ((arg ++ 0 :: more).getD 1 0) = true ↔ 2 ≤ arg.length := by
  obtain ⟨hne, hall⟩ := h
  match arg, hne with
  | [c], _ => exact iff_of_false (by simp [isdigit]) (by simp)
  | c :: d :: rest, _ => exact iff_of_true (by simpa using hall d (by simp)) (by simp)

section other
variable {s : Sys} (hw : WellNumbered s.vars.jobs) (command : Command) (more : List UInt8)

/-- With no digit in the second place, the argument is refused. -/
theorem refused_iff (hp : arg.head? ≠ some 37)
    (hd : isdigit ((arg ++ 0 :: more).getD 1 0) = false) :
    AsDocumented s (s.doBgfg command (arg ++ 0 :: more)) command arg ↔ ¬IsNumeral arg := by
  have hlookup : bgfgLookup s.vars.jobs command (some (arg ++ 0 :: more)) =
      (.print (.badArgument command.word), .prompt) := by
    simp only [bgfgLookup, headD_ne hp more, hd, ↓reduceIte, Bool.false_eq_true]
  rw [asDocumented_message (doBgfg_message hlookup)]
  constructor
  · rintro ⟨-, hexpected⟩ hn
    cases hexpected.pid hn
  · intro hn
    exact ⟨fun i hi => hn ((names_pid hp i).1 hi).2.1, {
      jid := fun _ he _ => absurd (he ▸ rfl) hp
      pid := fun h => absurd h hn
      other := fun _ _ => rfl }⟩

include hw

/-- With a digit there, it is taken for a pid, whatever it is. -/
theorem looked_up_iff (hz : 0 ∉ arg) (hp : arg.head? ≠ some 37)
    (hd : isdigit ((arg ++ 0 :: more).getD 1 0) = true) :
    AsDocumented s (s.doBgfg command (arg ++ 0 :: more)) command arg ↔
      IsNumeral arg ∧ digits arg ≤ intMax := by
  cases hg : getjobpid s.vars.jobs (atoi arg) with
  | some slot =>
    obtain ⟨ho, hpid⟩ := getjobpid_found hg
    have hcont := doBgfg_pid (bgfgLookup_pid command hz hp hd hg)
    rw [← hpid] at hcont
    rw [asDocumented_continued hw ho hcont, names_pid hp]
    constructor
    · rintro ⟨-, hn, he⟩
      exact ⟨hn, he ▸ (hw.pid slot ho).2⟩
    · rintro ⟨hn, hr⟩
      exact ⟨ho, hn, (atoi_inRange hn hr).symm.trans hpid.symm⟩
  | none =>
    have hlookup : bgfgLookup s.vars.jobs command (some (arg ++ 0 :: more)) =
        (.print (.noSuchProcess (atoi arg)), .prompt) := by
      simp only [bgfgLookup, headD_ne hp more, hd, ↓reduceIte, cstring_terminate,
        cstring_eq_self hz, hg]
    rw [asDocumented_message (doBgfg_message hlookup)]
    constructor
    · rintro ⟨-, hexpected⟩
      have hn : IsNumeral arg := by
        by_contra hn
        cases hexpected.other hp hn
      have hatoi : atoi arg = digits arg := Output.noSuchProcess.inj (hexpected.pid hn)
      exact ⟨hn, hatoi ▸ atoi_le arg⟩
    · rintro ⟨hn, hr⟩
      have hatoi := atoi_inRange hn hr
      refine ⟨fun i hi => ?_, ?_⟩
      · obtain ⟨ho, -, he⟩ := (names_pid hp i).1 hi
        exact getjobpid_missing hw hg ho (he.symm.trans hatoi.symm)
      · exact {
          jid := fun _ he _ => absurd (he ▸ rfl) hp
          pid := fun _ => congrArg _ hatoi
          other := fun _ h => absurd hn h }

/-- The other arguments. -/
theorem other_iff (arg : List UInt8) (hz : 0 ∉ arg) (hp : arg.head? ≠ some 37) :
    AsDocumented s (s.doBgfg command (arg ++ 0 :: more)) command arg ↔
      Understood s.vars.jobs arg more := by
  rw [understood_pid hp]
  cases hd : isdigit ((arg ++ 0 :: more).getD 1 0) with
  | false =>
    rw [refused_iff command more hp hd]
    refine ⟨fun hn => .inr ⟨hn, rfl⟩, ?_⟩
    rintro (⟨hn, hlen, -⟩ | ⟨hn, -⟩)
    · exact absurd ((second_digit hn more).2 hlen) (Bool.eq_false_iff.1 hd)
    · exact hn
  | true =>
    rw [looked_up_iff hw command more hz hp hd]
    refine ⟨fun ⟨hn, hr⟩ => .inl ⟨hn, (second_digit hn more).1 hd, hr⟩, ?_⟩
    rintro (⟨hn, -, hr⟩ | ⟨-, hf⟩)
    · exact ⟨hn, hr⟩
    · cases hf

end other

/-- `fg` and `bg` do as documented exactly for the arguments that they understand. -/
theorem argument_forms_iff (s : Sys) (command : Command) (arg more : List UInt8)
    (hw : WellNumbered s.vars.jobs) (hz : 0 ∉ arg) :
    AsDocumented s (s.doBgfg command (arg ++ 0 :: more)) command arg ↔
      Understood s.vars.jobs arg more := by
  by_cases hp : arg.head? = some 37
  · obtain ⟨number, rfl⟩ := List.head?_eq_some_iff.1 hp
    exact percent_iff hw command number more hz
  · exact other_iff hw command more arg hz hp

/-- One stopped job, with number 1 and pid 100. -/
def oneStopped : Sys :=
  { (shell false emptyMemory).start with
    vars := ⟨false, 2,
      Function.update (initjobs emptyMemory) 0 ⟨100, 0, 1, .st, chars "./myspin 9\n"⟩⟩
    children := {100}
    status := fun _ => .stopped 20 true }

theorem fg_by_pid : WellNumbered oneStopped.vars.jobs ∧
    AsDocumented oneStopped (oneStopped.doBgfg .fg (chars "100" ++ 0 :: [])) .fg (chars "100") := by
  have hw : WellNumbered oneStopped.vars.jobs := by decide +kernel
  have hunderstood : Understood oneStopped.vars.jobs (chars "100") [] :=
    (understood_pid (by decide) _ _).2 (by decide +kernel)
  exact ⟨hw, (argument_forms_iff oneStopped .fg (chars "100") [] hw (by decide)).2 hunderstood⟩

/-- For `fg a1`, the digit in the second place makes `do_bgfg` look for a process 0. -/
theorem fg_tests_second_character : WellNumbered oneStopped.vars.jobs ∧
    (oneStopped.doBgfg .fg (chars "a1" ++ 0 :: [])).log = [.printed (.noSuchProcess 0)] ∧
    ¬AsDocumented oneStopped (oneStopped.doBgfg .fg (chars "a1" ++ 0 :: [])) .fg (chars "a1") := by
  have hw : WellNumbered oneStopped.vars.jobs := by decide +kernel
  have hnot : ¬Understood oneStopped.vars.jobs (chars "a1") [] := fun h =>
    absurd ((understood_pid (by decide) _ _).1 h) (by decide +kernel)
  exact ⟨hw, by decide +kernel,
    fun h => hnot ((other_iff hw .fg [] (chars "a1") (by decide) (by decide)).1 h)⟩

end Cs324.Shell
