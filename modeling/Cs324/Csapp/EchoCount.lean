import Cs324.Base.CLib
import Cs324.Base.Cursor
import Cs324.Base.Machine
import Cs324.Base.Threads
import Mathlib.Algebra.GroupWithZero.Nat

namespace Cs324.Csapp
set_option autoImplicit true

/-- `pthread_once_t`. -/
inductive Once
  | fresh
  | running
  | done
  deriving DecidableEq

/-- What a thread does next in `echo_cnt`, between two connections or in `init_echo_cnt`. -/
inductive CountPc
  | idle
  | once (connfd : Int)
  | semInit (connfd : Int)
  | zeroCount (connfd : Int)
  | read (connfd : Int)
  | lock (connfd : Int) (n : Nat)
  | load (connfd : Int) (n : Nat)
  | store (connfd : Int) (n : Nat) (byteCnt : Int)
  | print (connfd : Int) (n : Nat)
  | unlock (connfd : Int) (n : Nat)
  | write (connfd : Int) (n : Nat)
  deriving DecidableEq

/-- The numbers in a line that `echo_cnt` prints. -/
structure Report where
  n : Nat
  total : Int
  fd : Int
  deriving DecidableEq

/-- `byte_cnt`, `mutex` and `once`, the lines printed, and the threads; a wrapper that fails ends
the process. -/
structure Counting (ω : Type) where
  byteCnt : Int
  mutex : Nat
  once : Once
  printed : List Report
  threads : ω → CountPc
  exited : Bool

inductive CountAction (ω : Type)
  | serve (w : ω) (connfd : Int)
  | readline (w : ω) (n : Nat)
  | step (w : ω)
  | fail (w : ω)
  deriving DecidableEq

variable {ω : Type} [DecidableEq ω]

def Counting.moved (s : Counting ω) (w : ω) (pc : CountPc) : Counting ω :=
  { s with threads := Function.update s.threads w pc }

/-- A thread that calls `Pthread_once` while another one runs `init_echo_cnt` waits. -/
def Counting.advance (s : Counting ω) (w : ω) : Option (Counting ω) :=
  match s.threads w with
  | .once connfd =>
    match s.once with
    | .fresh => some { s.moved w (.semInit connfd) with once := .running }
    | .running => none
    | .done => some (s.moved w (.read connfd))
  | .semInit connfd => some { s.moved w (.zeroCount connfd) with mutex := 1 }
  | .zeroCount connfd => some { s.moved w (.read connfd) with byteCnt := 0, once := .done }
  | .lock connfd n =>
    (semWait s.mutex).map fun mutex => { s.moved w (.load connfd n) with mutex }
  | .load connfd n => some (s.moved w (.store connfd n s.byteCnt))
  | .store connfd n byteCnt =>
    some { s.moved w (.print connfd n) with byteCnt := int32 (byteCnt + n) }
  | .print connfd n =>
    some { s.moved w (.unlock connfd n) with printed := s.printed ++ [⟨n, s.byteCnt, connfd⟩] }
  | .unlock connfd n => some { s.moved w (.write connfd n) with mutex := semPost s.mutex }
  | .write connfd _ => some (s.moved w (.read connfd))
  | .idle | .read _ => none

def Counting.next (s : Counting ω) (a : CountAction ω) : Option (Counting ω) :=
  if s.exited then none
  else
    match a with
    | .serve w connfd =>
      match s.threads w with
      | .idle => some (s.moved w (.once connfd))
      | _ => none
    | .readline w n =>
      match s.threads w with
      | .read connfd => some (s.moved w (if n = 0 then .idle else .lock connfd n))
      | _ => none
    | .step w => s.advance w
    | .fail w =>
      match s.threads w with
      | .read _ | .write _ _ => some { s with exited := true }
      | _ => none

/-- The threads `ω` that serve clients with `echo_cnt`. -/
def echoCnt (ω : Type) [DecidableEq ω] : Machine (Counting ω) (CountAction ω) where
  start := ⟨0, 0, .fresh, [], fun _ => .idle, false⟩
  next := Counting.next

inductive Counts (s : Counting ω) : CountAction ω → Counting ω → Prop
  | serve (hw : s.threads w = .idle) : Counts s (.serve w connfd) (s.moved w (.once connfd))
  | first (hw : s.threads w = .once connfd) (ho : s.once = .fresh) :
      Counts s (.step w) { s.moved w (.semInit connfd) with once := .running }
  | later (hw : s.threads w = .once connfd) (ho : s.once = .done) :
      Counts s (.step w) (s.moved w (.read connfd))
  | semInit (hw : s.threads w = .semInit connfd) :
      Counts s (.step w) { s.moved w (.zeroCount connfd) with mutex := 1 }
  | zeroCount (hw : s.threads w = .zeroCount connfd) :
      Counts s (.step w) { s.moved w (.read connfd) with byteCnt := 0, once := .done }
  | read (hw : s.threads w = .read connfd) :
      Counts s (.readline w n) (s.moved w (if n = 0 then .idle else .lock connfd n))
  | lock (hw : s.threads w = .lock connfd n) (hm : s.mutex = mutex + 1) :
      Counts s (.step w) { s.moved w (.load connfd n) with mutex }
  | load (hw : s.threads w = .load connfd n) :
      Counts s (.step w) (s.moved w (.store connfd n s.byteCnt))
  | store (hw : s.threads w = .store connfd n byteCnt) :
      Counts s (.step w) { s.moved w (.print connfd n) with byteCnt := int32 (byteCnt + n) }
  | print (hw : s.threads w = .print connfd n) : Counts s (.step w)
      { s.moved w (.unlock connfd n) with printed := s.printed ++ [⟨n, s.byteCnt, connfd⟩] }
  | unlock (hw : s.threads w = .unlock connfd n) :
      Counts s (.step w) { s.moved w (.write connfd n) with mutex := s.mutex + 1 }
  | write (hw : s.threads w = .write connfd n) : Counts s (.step w) (s.moved w (.read connfd))
  | fail : Counts s (.fail w) { s with exited := true }

theorem advance_counts {s t : Counting ω} (h : s.advance w = some t) : Counts s (.step w) t := by
  rw [Counting.advance] at h
  cases hw : s.threads w with
  | idle | read connfd => simp [hw] at h
  | once connfd =>
    rw [hw] at h
    cases ho : s.once with
    | fresh =>
      simp only [ho] at h
      cases h
      exact .first hw ho
    | running => simp [ho] at h
    | done =>
      simp only [ho] at h
      cases h
      exact .later hw ho
  | lock connfd n =>
    rw [hw] at h
    obtain ⟨mutex, hm, rfl⟩ := Option.map_eq_some_iff.1 h
    exact .lock hw (semWait_eq_some.1 hm)
  | semInit connfd =>
    rw [hw] at h
    cases h
    exact .semInit hw
  | zeroCount connfd =>
    rw [hw] at h
    cases h
    exact .zeroCount hw
  | load connfd n =>
    rw [hw] at h
    cases h
    exact .load hw
  | store connfd n byteCnt =>
    rw [hw] at h
    cases h
    exact .store hw
  | print connfd n =>
    rw [hw] at h
    cases h
    exact .print hw
  | unlock connfd n =>
    rw [hw] at h
    cases h
    exact .unlock hw
  | write connfd n =>
    rw [hw] at h
    cases h
    exact .write hw

theorem next_counts {s t : Counting ω} (h : s.next a = some t) : Counts s a t := by
  unfold Counting.next at h
  split at h
  · cases h
  · cases a with
    | serve w connfd =>
      cases hw : s.threads w with
      | idle =>
        simp only [hw] at h
        cases h
        exact .serve hw
      | _ => simp [hw] at h
    | readline w n =>
      cases hw : s.threads w with
      | read connfd =>
        simp only [hw] at h
        cases h
        exact .read hw
      | _ => simp [hw] at h
    | step w => exact advance_counts h
    | fail w =>
      dsimp only at h
      split at h
      · cases h
        exact .fail
      · cases h
        exact .fail
      · cases h

/-- How often a thread has to initialize the mutex, has initialized it only, is behind the
initialization, has locked the mutex, and what it has added to the counter and not printed. -/
def CountPc.atSemInit : CountPc → Nat
  | .semInit _ => 1
  | _ => 0

def CountPc.atZero : CountPc → Nat
  | .zeroCount _ => 1
  | _ => 0

def CountPc.entered : CountPc → Nat
  | .idle | .once _ | .semInit _ | .zeroCount _ => 0
  | _ => 1

def CountPc.locked : CountPc → Nat
  | .load _ _ | .store _ _ _ | .print _ _ | .unlock _ _ => 1
  | _ => 0

def CountPc.unprinted : CountPc → Nat
  | .print _ n => n
  | _ => 0

/-- One thread initializes, and the others wait for it; from then on the mutex is free or locked by
one thread. -/
structure Guarded [Fintype ω] (s : Counting ω) : Prop where
  once : total CountPc.atSemInit s.threads + total CountPc.atZero s.threads =
    if s.once = .running then 1 else 0
  mutex : s.mutex + total CountPc.locked s.threads =
    if s.once = .done then 1 else total CountPc.atZero s.threads
  entered : s.once ≠ .done → total CountPc.entered s.threads = 0
  printed : s.once ≠ .done → s.printed = []

section guard
variable [Fintype ω] {s t : Counting ω}

theorem Guarded.done (h : Guarded s) (hw : s.threads w = pc) (he : pc.entered = 1) :
    s.once = .done := by
  by_contra ho
  have hle := le_total CountPc.entered s.threads w
  rw [h.entered ho, hw, he] at hle
  cases hle

omit [DecidableEq ω] in
/-- What a thread that moves adds to what all threads hold. -/
theorem totals_update [DecidableEq ω] (threads : ω → CountPc) (w : ω) (pc : CountPc) :
    total CountPc.atSemInit (Function.update threads w pc) + (threads w).atSemInit =
        total CountPc.atSemInit threads + pc.atSemInit ∧
      total CountPc.atZero (Function.update threads w pc) + (threads w).atZero =
        total CountPc.atZero threads + pc.atZero ∧
      total CountPc.entered (Function.update threads w pc) + (threads w).entered =
        total CountPc.entered threads + pc.entered ∧
      total CountPc.locked (Function.update threads w pc) + (threads w).locked =
        total CountPc.locked threads + pc.locked :=
  ⟨total_update _ _ _ _, total_update _ _ _ _, total_update _ _ _ _, total_update _ _ _ _⟩

/-- A step that leaves `once` as it is. -/
theorem Guarded.moved (h : Guarded s) (hw : s.threads w = pc)
    (ht : t.threads = Function.update s.threads w pc') (ho : t.once = s.once)
    (hsem : pc'.atSemInit = pc.atSemInit) (hzero : pc'.atZero = pc.atZero)
    (hmutex : t.mutex + pc'.locked = s.mutex + pc.locked)
    (hentered : pc'.entered = pc.entered ∨ s.once = .done)
    (hprinted : s.once ≠ .done → t.printed = s.printed) : Guarded t := by
  obtain ⟨honce, hlock, hin, hnone⟩ := h
  obtain ⟨hs, hz, he, hl⟩ := totals_update s.threads w pc'
  rw [hw] at hs hz he hl
  have hz' : total CountPc.atZero (Function.update s.threads w pc') =
      total CountPc.atZero s.threads := by omega
  refine ⟨?_, ?_, fun hne => ?_, fun hne => ?_⟩
  · rw [ht, ho, ← honce]
    omega
  · rw [ht, ho, hz', ← hlock]
    omega
  · rw [ho] at hne
    have hzero := hin hne
    rcases hentered with heq | hdone
    · rw [ht]
      omega
    · exact absurd hdone hne
  · rw [ho] at hne
    rw [hprinted hne]
    exact hnone hne

/-- The three steps that initialize. -/
theorem Guarded.first (h : Guarded s) (hw : s.threads w = .once connfd) (ho : s.once = .fresh) :
    Guarded { s.moved w (.semInit connfd) with once := .running } := by
  obtain ⟨honce, hlock, hin, hnone⟩ := h
  obtain ⟨hs, hz, he, hl⟩ := totals_update s.threads w (.semInit connfd)
  rw [hw] at hs hz he hl
  rw [ho, if_neg (by decide)] at honce hlock
  have hne : s.once ≠ .done := by rw [ho]; decide
  have hzero := hin hne
  simp only [CountPc.atSemInit, CountPc.atZero, CountPc.entered, CountPc.locked] at hs hz he hl
  refine ⟨?_, ?_, fun _ => ?_, fun _ => hnone hne⟩ <;> dsimp only [Counting.moved]
  · rw [if_pos rfl]
    omega
  · rw [if_neg (by decide)]
    omega
  · omega

theorem Guarded.semInit (h : Guarded s) (hw : s.threads w = .semInit connfd) :
    s.once = .running ∧ Guarded { s.moved w (.zeroCount connfd) with mutex := 1 } := by
  obtain ⟨honce, hlock, hin, hnone⟩ := h
  obtain ⟨hs, hz, he, hl⟩ := totals_update s.threads w (.zeroCount connfd)
  have hone := le_total CountPc.atSemInit s.threads w
  rw [hw] at hs hz he hl hone
  simp only [CountPc.atSemInit, CountPc.atZero, CountPc.entered, CountPc.locked] at hs hz he hl hone
  have hrunning : s.once = .running := by
    by_contra hne
    rw [if_neg hne] at honce
    omega
  have hne : s.once ≠ .done := by rw [hrunning]; decide
  have hzero := hin hne
  rw [if_neg hne] at hlock
  rw [if_pos hrunning] at honce
  have honce' : total CountPc.atSemInit (Function.update s.threads w (.zeroCount connfd)) +
      total CountPc.atZero (Function.update s.threads w (.zeroCount connfd)) = 1 := by omega
  have hlock' : 1 + total CountPc.locked (Function.update s.threads w (.zeroCount connfd)) =
      total CountPc.atZero (Function.update s.threads w (.zeroCount connfd)) := by omega
  exact ⟨hrunning, honce'.trans (if_pos hrunning).symm, hlock'.trans (if_neg hne).symm,
    fun _ => he.trans hzero, fun _ => hnone hne⟩

theorem Guarded.zeroCount (h : Guarded s) (hw : s.threads w = .zeroCount connfd) :
    s.once = .running ∧
      Guarded { s.moved w (.read connfd) with byteCnt := 0, once := .done } := by
  obtain ⟨honce, hlock, hin, hnone⟩ := h
  obtain ⟨hs, hz, he, hl⟩ := totals_update s.threads w (.read connfd)
  have hone := le_total CountPc.atZero s.threads w
  rw [hw] at hs hz he hl hone
  simp only [CountPc.atSemInit, CountPc.atZero, CountPc.entered, CountPc.locked] at hs hz he hl hone
  have hrunning : s.once = .running := by
    by_contra hne
    rw [if_neg hne] at honce
    omega
  have hne : s.once ≠ .done := by rw [hrunning]; decide
  have hzero := hin hne
  rw [if_neg hne] at hlock
  rw [if_pos hrunning] at honce
  refine ⟨hrunning, ?_, ?_, fun hd => absurd rfl hd, fun hd => absurd rfl hd⟩ <;>
    dsimp only [Counting.moved]
  · rw [if_neg (by decide)]
    omega
  · rw [if_pos rfl]
    omega

theorem Guarded.step (h : Guarded s) (hs : Counts s a t) : Guarded t := by
  cases hs with
  | serve hw => exact h.moved hw rfl rfl rfl rfl rfl (.inl rfl) fun _ => rfl
  | first hw ho => exact h.first hw ho
  | later hw ho => exact h.moved hw rfl rfl rfl rfl rfl (.inr ho) fun _ => rfl
  | semInit hw => exact (h.semInit hw).2
  | zeroCount hw => exact (h.zeroCount hw).2
  | read hw =>
    refine h.moved hw rfl rfl ?_ ?_ ?_ (.inr (h.done hw rfl)) fun _ => rfl
    · split <;> rfl
    · split <;> rfl
    · split <;> rfl
  | lock hw hm => exact h.moved hw rfl rfl rfl rfl (by rw [hm]; rfl) (.inl rfl) fun _ => rfl
  | load hw | store hw | unlock hw | write hw =>
    exact h.moved hw rfl rfl rfl rfl rfl (.inl rfl) fun _ => rfl
  | print hw =>
    exact h.moved hw rfl rfl rfl rfl rfl (.inl rfl) fun hne => absurd (h.done hw rfl) hne
  | fail => exact ⟨h.once, h.mutex, h.entered, h.printed⟩

theorem guarded (h : (echoCnt ω).Reachable s) : Guarded s := by
  apply h.invariant
  · constructor <;> simp [echoCnt, total, CountPc.atSemInit, CountPc.atZero, CountPc.entered,
      CountPc.locked]
  · intro s a t _ hs _ hn
    exact hs.step (next_counts hn)

/-- While a thread has locked the mutex, no other one has. -/
theorem Guarded.alone (h : Guarded s) (hw : (s.threads w).locked = 1) (hne : w' ≠ w) :
    (s.threads w').locked = 0 := by
  have hentered : (s.threads w).entered = 1 := by
    cases hpc : s.threads w <;> simp [hpc, CountPc.locked] at hw <;> rfl
  have hmutex := h.mutex
  rw [if_pos (h.done rfl hentered)] at hmutex
  have hrest := total_update CountPc.locked s.threads w .idle
  have hle := le_total CountPc.locked (Function.update s.threads w .idle) w'
  rw [Function.update_of_ne hne] at hle
  simp only [CountPc.locked] at hrest hw hle ⊢
  omega

/-- The counter is the sum of what has been printed and what is still to be printed, and each line
has the sum of the counts up to it. -/
structure Summed (s : Counting ω) : Prop where
  sum : s.once = .done → s.byteCnt =
    int32 ((s.printed.map Report.n).sum + total CountPc.unprinted s.threads)
  stored : s.threads w = .store connfd n byteCnt → byteCnt = s.byteCnt
  totals : s.printed[k]? = some report →
    report.total = int32 ((s.printed.take (k + 1)).map Report.n).sum

theorem unprinted_eq_zero (h : CountPc.locked pc = 0) : pc.unprinted = 0 := by
  cases pc <;> simp [CountPc.locked] at h <;> rfl

theorem Guarded.unprinted (h : Guarded s) (hw : (s.threads w).locked = 1) :
    total CountPc.unprinted s.threads = (s.threads w).unprinted := by
  rw [total, Finset.sum_eq_single w]
  · intro w' _ hne
    exact unprinted_eq_zero (h.alone hw hne)
  · intro hnot
    exact absurd (Finset.mem_univ w) hnot

/-- A step that leaves the counter and the lines as they are. -/
theorem Summed.moved (h : Summed s) (hw : s.threads w = pc)
    (ht : t.threads = Function.update s.threads w pc') (hb : t.byteCnt = s.byteCnt)
    (hp : t.printed = s.printed) (ho : t.once = .done → s.once = .done)
    (hu : pc'.unprinted = pc.unprinted)
    (hstore : ∀ connfd n byteCnt, pc' = .store connfd n byteCnt → byteCnt = s.byteCnt) :
    Summed t := by
  have htotal := total_update CountPc.unprinted s.threads w pc'
  rw [hw, hu, ← ht] at htotal
  refine ⟨fun hd => ?_, fun {w' connfd n byteCnt} hw' => ?_, fun {k report} hk => ?_⟩
  · rw [hb, hp, h.sum (ho hd), Nat.add_right_cancel htotal]
  · rw [ht] at hw'
    rw [hb]
    rcases eq_or_ne w' w with rfl | hne
    · rw [Function.update_self] at hw'
      exact hstore _ _ _ hw'
    · rw [Function.update_of_ne hne] at hw'
      exact h.stored hw'
  · rw [hp] at hk ⊢
    exact h.totals hk

theorem int32_add_int32 (x y : Int) : int32 (int32 x + y) = int32 (x + y) := by
  simp only [int32]
  omega

theorem Summed.store (h : Summed s) (hg : Guarded s) (hw : s.threads w = .store connfd n byteCnt) :
    Summed { s.moved w (.print connfd n) with byteCnt := int32 (byteCnt + n) } := by
  have hlocked : (s.threads w).locked = 1 := by rw [hw]; rfl
  have htotal := total_update CountPc.unprinted s.threads w (.print connfd n)
  rw [hw] at htotal
  have htotal' : total CountPc.unprinted (Function.update s.threads w (.print connfd n)) =
      total CountPc.unprinted s.threads + n := htotal
  refine ⟨fun hd => ?_, fun {w' _ _ _} hw' => ?_, fun hk => h.totals hk⟩
  · dsimp only [Counting.moved]
    rw [h.stored hw, h.sum (hg.done hw rfl), int32_add_int32, htotal', Int.natCast_add,
      Int.add_assoc]
  · dsimp only [Counting.moved] at hw'
    rcases eq_or_ne w' w with rfl | hne
    · rw [Function.update_self] at hw'
      cases hw'
    · rw [Function.update_of_ne hne] at hw'
      have hzero := hg.alone hlocked hne
      rw [hw'] at hzero
      cases hzero

theorem Summed.print (h : Summed s) (hg : Guarded s) (hw : s.threads w = .print connfd n) :
    Summed { s.moved w (.unlock connfd n) with
      printed := s.printed ++ [⟨n, s.byteCnt, connfd⟩] } := by
  have hlocked : (s.threads w).locked = 1 := by rw [hw]; rfl
  have hall := hg.unprinted hlocked
  have htotal := total_update CountPc.unprinted s.threads w (.unlock connfd n)
  rw [hw] at htotal hall
  have htotal' : total CountPc.unprinted (Function.update s.threads w (.unlock connfd n)) = 0 := by
    simp only [CountPc.unprinted] at htotal hall
    omega
  have hsum := h.sum (hg.done hw rfl)
  rw [hall] at hsum
  refine ⟨fun hd => ?_, fun {w' _ _ _} hw' => ?_, fun {k report} hk => ?_⟩
  · dsimp only [Counting.moved]
    rw [htotal', hsum]
    simp [CountPc.unprinted]
  · dsimp only [Counting.moved] at hw'
    rcases eq_or_ne w' w with rfl | hne
    · rw [Function.update_self] at hw'
      cases hw'
    · rw [Function.update_of_ne hne] at hw'
      exact h.stored hw'
  · dsimp only at hk ⊢
    rcases getElem?_append_some hk with ⟨hlt, hk⟩ | ⟨rfl, rfl⟩
    · rw [List.take_append_of_le_length hlt]
      exact h.totals hk
    · rw [List.take_of_length_le (by simp), hsum]
      simp [CountPc.unprinted]

theorem Guarded.summed (hg : Guarded s) (hw : s.threads w = .zeroCount connfd) :
    Summed { s.moved w (.read connfd) with byteCnt := 0, once := .done } := by
  obtain ⟨hrunning, -⟩ := hg.zeroCount hw
  have hne : s.once ≠ .done := by rw [hrunning]; decide
  have hnone := hg.printed hne
  have hout : ∀ w', (s.threads w').entered = 0 := fun w' => by
    have hle := le_total CountPc.entered s.threads w'
    rw [hg.entered hne] at hle
    omega
  refine ⟨fun hd => ?_, fun {w' _ _ _} hw' => ?_, fun {k report} hk => ?_⟩
  · have htotal : total CountPc.unprinted (Function.update s.threads w (.read connfd)) = 0 := by
      rw [total, Finset.sum_eq_zero]
      intro w' _
      rcases eq_or_ne w' w with rfl | hne
      · rw [Function.update_self]
        rfl
      · rw [Function.update_of_ne hne]
        have hw' := hout w'
        cases hpc : s.threads w' <;> simp [hpc, CountPc.entered] at hw' <;> rfl
    dsimp only [Counting.moved]
    rw [htotal, hnone]
    rfl
  · dsimp only [Counting.moved] at hw'
    rcases eq_or_ne w' w with rfl | hne
    · rw [Function.update_self] at hw'
      cases hw'
    · rw [Function.update_of_ne hne] at hw'
      have hzero := hout w'
      rw [hw'] at hzero
      cases hzero
  · change s.printed[k]? = _ at hk
    rw [hnone] at hk
    cases hk

theorem Summed.step (h : Summed s) (hg : Guarded s) (hs : Counts s a t) : Summed t := by
  cases hs with
  | serve hw | later hw | semInit hw | lock hw | unlock hw | write hw =>
    exact h.moved hw rfl rfl rfl id rfl nofun
  | first hw ho => exact h.moved hw rfl rfl rfl nofun rfl nofun
  | read hw =>
    refine h.moved hw rfl rfl rfl id ?_ ?_
    · split <;> rfl
    · split <;> nofun
  | load hw =>
    refine h.moved hw rfl rfl rfl id rfl ?_
    rintro _ _ _ ⟨⟩
    rfl
  | zeroCount hw => exact hg.summed hw
  | store hw => exact h.store hg hw
  | print hw => exact h.print hg hw
  | fail => exact ⟨h.sum, h.stored, h.totals⟩

theorem summed (h : (echoCnt ω).Reachable s) : Summed s := by
  apply h.invariant
  · exact ⟨nofun, nofun, nofun⟩
  · intro s a t hr hs _ hn
    exact hs.step (guarded hr) (next_counts hn)

/-- However the threads interleave, each line that they print has the sum of all counts printed up
to it, as an `int`, and the counter does not miss or repeat any of them. -/
theorem echo_cnt_totals (s : Counting ω) (h : (echoCnt ω).Reachable s) :
    (∀ k report, s.printed[k]? = some report →
      report.total = int32 ((s.printed.take (k + 1)).map Report.n).sum) ∧
    ∀ w w', (s.threads w).locked = 1 → (s.threads w').locked = 1 → w = w' := by
  refine ⟨fun k report hk => (summed h).totals hk, fun w w' hw hw' => ?_⟩
  by_contra hne
  rw [(guarded h).alone hw (Ne.symm hne)] at hw'
  cases hw'

/-- Two clients, whose threads take turns at the mutex. -/
def twoClients : List (CountAction Bool) :=
  [.serve false 4, .serve true 5, .step false, .step false, .step false, .step true,
    .readline false 3, .readline true 5, .step true, .step true, .step true, .step true,
    .step true, .step false, .step false, .step false, .step false]

theorem two_clients_counted : ∃ s : Counting Bool,
    s.printed = [⟨5, 5, 5⟩, ⟨3, 8, 4⟩] ∧ (∀ k report, s.printed[k]? = some report →
      report.total = int32 ((s.printed.take (k + 1)).map Report.n).sum) ∧
    ∀ w w', (s.threads w).locked = 1 → (s.threads w').locked = 1 → w = w' := by
  obtain ⟨s, hr, hp⟩ := (echoCnt Bool).exists_reach_of_exec (fun _ _ => True) twoClients
    (P := fun s => s.printed = [⟨5, 5, 5⟩, ⟨3, 8, 4⟩]) (Machine.along_true _ _) (by decide)
  exact ⟨s, hp, echo_cnt_totals s hr⟩

end guard

end Cs324.Csapp
