import Cs324.ThreadPool.Handover

namespace Cs324.ThreadPool
set_option autoImplicit true

/-- The steps that `main` has still to do until it calls `accept` again, those that its item then
needs, and those of a worker until it waits again. -/
def MainPc.steps : MainPc → Nat
  | .accept => 0
  | .postItems => 1
  | .unlock => 2
  | .insert _ => 3
  | .lock _ => 4
  | .waitSlots _ => 5

def MainPc.owes : MainPc → Nat
  | .accept => 0
  | _ => 6

def WorkerPc.steps : WorkerPc → Nat
  | .waitItems => 0
  | .serve _ => 1
  | .postSlots _ => 2
  | .unlock _ => 3
  | .remove => 4
  | .lock => 5

section work
variable {ω : Type} [Fintype ω] [DecidableEq ω] {n : Nat} {s t : Sys ω}

/-- How many steps there are left if no one else connects. -/
def Sys.work (s : Sys ω) : Nat :=
  s.main.steps + s.main.owes + 6 * s.sbuf.items + total WorkerPc.steps s.workers

/-- A step of the proxy itself. -/
def Internal (_ : Sys ω) : Action ω → Prop
  | .accept _ => False
  | _ => True

instance (s : Sys ω) : ∀ a, Decidable (Internal s a)
  | .accept _ => .isFalse id
  | .main => .isTrue trivial
  | .worker _ => .isTrue trivial

omit [DecidableEq ω] in
theorem work_main (hm : s.main = pc) (hw : t.workers = s.workers)
    (h : t.main.steps + t.main.owes + 6 * t.sbuf.items + 1 =
      pc.steps + pc.owes + 6 * s.sbuf.items) : t.work < s.work := by
  rw [Sys.work, Sys.work, hw, hm]
  omega

theorem work_worker (hw : s.workers w = pc) (ht : t.workers = Function.update s.workers w pc')
    (hm : t.main = s.main) (h : 6 * t.sbuf.items + pc'.steps + 1 = 6 * s.sbuf.items + pc.steps) :
    t.work < s.work := by
  have hsteps := total_update WorkerPc.steps s.workers w pc'
  rw [hw] at hsteps
  rw [Sys.work, Sys.work, ht, hm]
  omega

theorem work_decreases (ha : Internal s a) (hs : Step s a t) : t.work < s.work := by
  cases hs with
  | accept => exact ha.elim
  | waitSlots hm | lock hm | unlock hm | postItems hm =>
    refine work_main hm rfl ?_
    simp only [MainPc.steps, MainPc.owes]
    omega
  | insert hm =>
    refine work_main hm rfl ?_
    simp only [MainPc.steps, MainPc.owes, Sbuf.insert]
    omega
  | waitItems hw hs =>
    refine work_worker hw rfl rfl ?_
    rw [hs]
    simp only [WorkerPc.steps]
    omega
  | lockWorker hw | remove hw | unlockWorker hw | postSlots hw | serve hw =>
    exact work_worker hw rfl rfl rfl

/-- Nothing is left to do, and the semaphores are as at the start. -/
structure AtRest (n : Nat) (s : Sys ω) : Prop where
  main : s.main = .accept
  workers : ∀ w, s.workers w = .waitItems
  mutex : s.sbuf.mutex = 1
  slots : s.sbuf.slots = n
  items : s.sbuf.items = 0
  served : s.queue.taken.length = s.queue.inserted.length

omit [Fintype ω] in
/-- Where a thread can be that has no step. -/
theorem blocked_worker (h : ∀ a, Internal s a → s.next a = none) (w : ω) :
    (s.workers w = .waitItems ∧ s.sbuf.items = 0) ∨
      (s.workers w = .lock ∧ s.sbuf.mutex = 0) := by
  have hw := h (.worker w) trivial
  rw [Sys.next] at hw
  cases hpc : s.workers w with
  | waitItems =>
    rw [hpc] at hw
    left
    simpa [semWait] using hw
  | lock =>
    rw [hpc] at hw
    right
    simpa [semWait] using hw
  | _ => simp [hpc] at hw

omit [Fintype ω] in
theorem blocked_main (h : ∀ a, Internal s a → s.next a = none) :
    s.main = .accept ∨ (∃ item, s.main = .waitSlots item ∧ s.sbuf.slots = 0) ∨
      ∃ item, s.main = .lock item ∧ s.sbuf.mutex = 0 := by
  have hm := h .main trivial
  rw [Sys.next] at hm
  cases hpc : s.main with
  | accept => exact .inl rfl
  | waitSlots item =>
    rw [hpc] at hm
    exact .inr (.inl ⟨item, rfl, by simpa [semWait] using hm⟩)
  | lock item =>
    rw [hpc] at hm
    exact .inr (.inr ⟨item, rfl, by simpa [semWait] using hm⟩)
  | _ => simp [hpc] at hm

omit [DecidableEq ω] in
theorem total_eq_zero {held : WorkerPc → Nat} (h : ∀ w, held (s.workers w) = 0) :
    total held s.workers = 0 := Finset.sum_eq_zero fun w _ => h w

/-- The threads do not wait for each other: one that holds the mutex has a step, and so has one of
those that the full or the empty buffer waits for. -/
theorem atRest_of_blocked [Nonempty ω] (hn : 0 < n) (hb : Balanced n s)
    (h : ∀ a, Internal s a → s.next a = none) : AtRest n s := by
  have hworker := blocked_worker h
  have hmain := blocked_main h
  have hlocked : total WorkerPc.locked s.workers = 0 := by
    apply total_eq_zero
    intro w
    rcases hworker w with ⟨hw, -⟩ | ⟨hw, -⟩ <;> rw [hw] <;> rfl
  have howes : total WorkerPc.owesSlot s.workers = 0 := by
    apply total_eq_zero
    intro w
    rcases hworker w with ⟨hw, -⟩ | ⟨hw, -⟩ <;> rw [hw] <;> rfl
  have hmainLocked : s.main.locked = 0 := by
    rcases hmain with hm | ⟨item, hm, -⟩ | ⟨item, hm, -⟩ <;> rw [hm] <;> rfl
  have hmutex : s.sbuf.mutex = 1 := by
    have := hb.mutex
    omega
  have hwaiting : ∀ w, s.workers w = .waitItems ∧ s.sbuf.items = 0 := by
    intro w
    rcases hworker w with hw | ⟨-, hzero⟩
    · exact hw
    · omega
  have howns : total WorkerPc.ownsItem s.workers = 0 := by
    apply total_eq_zero
    intro w
    rw [(hwaiting w).1]
    rfl
  obtain ⟨w₀⟩ := ‹Nonempty ω›
  have hitems := hb.items
  have hslots := hb.slots
  have hempty := (hwaiting w₀).2
  have hsettled : s.main.ownsSlot = 0 ∧ s.main.owesItem = 0 ∧ s.main = .accept := by
    rcases hmain with hm | ⟨item, hm, hfull⟩ | ⟨item, hm, hzero⟩
    · rw [hm]
      exact ⟨rfl, rfl, rfl⟩
    · rw [hm] at hitems hslots
      simp only [MainPc.owesItem, MainPc.ownsSlot] at hitems hslots
      omega
    · omega
  obtain ⟨hown, howe, haccept⟩ := hsettled
  exact ⟨haccept, fun w => (hwaiting w).1, hmutex, by omega, hempty, by omega⟩

/-- Once no one else connects, the proxy does only so many more steps, in whatever order, and where
it has none left, the workers have served every connection that it has accepted. -/
theorem proxy_comes_to_rest [Nonempty ω] (s : Sys ω) (hn : 0 < n)
    (h : (proxy ω n).Reachable s) :
    (∀ as t, (proxy ω n).Along Internal s as → (proxy ω n).exec s as = some t →
      as.length ≤ s.work) ∧
    ∀ as t, (proxy ω n).Along Internal s as → (proxy ω n).exec s as = some t →
      (∀ a, Internal t a → t.next a = none) → AtRest n t ∧
        (t.queue.inserted.length < 2147483647 → t.queue.taken.map Prod.snd = t.queue.inserted) := by
  refine ⟨fun as t has he => ?_, fun as t has he hblocked => ?_⟩
  · have hlength := Machine.exec_length_le Sys.work
      (fun ha hnext => work_decreases ha (next_step hnext)) has he
    omega
  · have hreach := h.exec (has.mono fun _ => trivial) he
    have hrest := atRest_of_blocked hn (balanced hreach) hblocked
    refine ⟨hrest, fun hlt => ?_⟩
    have horder := (Traffic.orderly (buffer_is_queue hreach hlt).2).order
    exact horder.eq_of_length (by rw [List.length_map, hrest.served])

/-- The steps of one connection, from `sbuf_insert` to the worker's next `sbuf_remove`. -/
def oneConnection : List (Action Bool) :=
  [.main, .main, .main, .main, .main, .worker true, .worker true, .worker true, .worker true,
    .worker true, .worker true]

theorem one_connection_rests : ∃ s t : Sys Bool, (proxy Bool 2).exec s oneConnection = some t ∧
    oneConnection.length ≤ s.work ∧ AtRest 2 t ∧ t.queue.taken.map Prod.snd = [⟨0, 4⟩] := by
  let s : Sys Bool := { (proxy Bool 2).start with main := .waitSlots ⟨0, 4⟩ }
  have hs : (proxy Bool 2).Reachable s :=
    .step (a := .accept 4) .start trivial rfl
  have hinternal : (proxy Bool 2).Along Internal s oneConnection := by
    decide
  obtain ⟨t, ht, hmain, hworkers, hqueue⟩ : ∃ t, (proxy Bool 2).exec s oneConnection = some t ∧
      t.main = .accept ∧ (∀ w, t.workers w = .waitItems ∧ t.sbuf.items = 0) ∧
      t.queue.inserted = [⟨0, 4⟩] := ⟨_, rfl, rfl, by decide, rfl⟩
  have hblocked : ∀ a, Internal t a → t.next a = none := by
    intro a ha
    cases a with
    | accept connfd => exact ha.elim
    | main => rw [Sys.next, hmain]
    | worker w => simp [Sys.next, hworkers w, semWait]
  obtain ⟨hbound, hrest⟩ := proxy_comes_to_rest s (by decide) hs
  obtain ⟨hat, htaken⟩ := hrest _ t hinternal ht hblocked
  exact ⟨s, t, ht, hbound _ t hinternal ht, hat, by rw [htaken (by rw [hqueue]; decide), hqueue]⟩

end work

end Cs324.ThreadPool
