import Cs324.Base.Counter
import Cs324.Base.Cursor
import Cs324.ThreadPool.Sbuf

namespace Cs324.ThreadPool
set_option autoImplicit true

variable {ω : Type} [DecidableEq ω]

inductive Step (s : Sys ω) : Action ω → Sys ω → Prop
  | accept (hm : s.main = .accept) : Step s (.accept connfd)
      { s with main := .waitSlots ⟨s.queue.inserted.length, connfd⟩ }
  | waitSlots (hm : s.main = .waitSlots item) (hs : s.sbuf.slots = slots + 1) :
      Step s .main { s with sbuf.slots := slots, main := .lock item }
  | lock (hm : s.main = .lock item) (hs : s.sbuf.mutex = mutex + 1) :
      Step s .main { s with sbuf.mutex := mutex, main := .insert item }
  | insert (hm : s.main = .insert item) : Step s .main { s with
      sbuf := s.sbuf.insert item
      queue.inserted := s.queue.inserted ++ [item]
      main := .unlock }
  | unlock (hm : s.main = .unlock) :
      Step s .main { s with sbuf.mutex := s.sbuf.mutex + 1, main := .postItems }
  | postItems (hm : s.main = .postItems) :
      Step s .main { s with sbuf.items := s.sbuf.items + 1, main := .accept }
  | waitItems (hw : s.workers w = .waitItems) (hs : s.sbuf.items = items + 1) :
      Step s (.worker w) { s.moved w .lock with sbuf.items := items }
  | lockWorker (hw : s.workers w = .lock) (hs : s.sbuf.mutex = mutex + 1) :
      Step s (.worker w) { s.moved w .remove with sbuf.mutex := mutex }
  | remove (hw : s.workers w = .remove) :
      Step s (.worker w) { s.moved w (.unlock s.sbuf.remove.1) with
        sbuf := s.sbuf.remove.2
        queue.taken := s.queue.taken ++ [(w, s.sbuf.remove.1)] }
  | unlockWorker (hw : s.workers w = .unlock item) :
      Step s (.worker w) { s.moved w (.postSlots item) with sbuf.mutex := s.sbuf.mutex + 1 }
  | postSlots (hw : s.workers w = .postSlots item) :
      Step s (.worker w) { s.moved w (.serve item) with sbuf.slots := s.sbuf.slots + 1 }
  | serve (hw : s.workers w = .serve item) : Step s (.worker w) (s.moved w .waitItems)

theorem next_step {s t : Sys ω} (h : s.next a = some t) : Step s a t := by
  cases a with
  | accept connfd =>
    cases hm : s.main with
    | accept =>
      rw [Sys.next, hm] at h
      cases h
      exact .accept hm
    | _ => simp [Sys.next, hm] at h
  | main =>
    rw [Sys.next] at h
    cases hm : s.main with
    | accept => simp [hm] at h
    | waitSlots item =>
      rw [hm] at h
      obtain ⟨slots, hs, rfl⟩ := Option.map_eq_some_iff.1 h
      exact .waitSlots hm (semWait_eq_some.1 hs)
    | lock item =>
      rw [hm] at h
      obtain ⟨mutex, hs, rfl⟩ := Option.map_eq_some_iff.1 h
      exact .lock hm (semWait_eq_some.1 hs)
    | insert item =>
      rw [hm] at h
      cases h
      exact .insert hm
    | unlock =>
      rw [hm] at h
      cases h
      exact .unlock hm
    | postItems =>
      rw [hm] at h
      cases h
      exact .postItems hm
  | worker w =>
    rw [Sys.next] at h
    cases hw : s.workers w with
    | waitItems =>
      rw [hw] at h
      obtain ⟨items, hs, rfl⟩ := Option.map_eq_some_iff.1 h
      exact .waitItems hw (semWait_eq_some.1 hs)
    | lock =>
      rw [hw] at h
      obtain ⟨mutex, hs, rfl⟩ := Option.map_eq_some_iff.1 h
      exact .lockWorker hw (semWait_eq_some.1 hs)
    | remove =>
      rw [hw] at h
      cases h
      exact .remove hw
    | unlock item =>
      rw [hw] at h
      cases h
      exact .unlockWorker hw
    | postSlots item =>
      rw [hw] at h
      cases h
      exact .postSlots hw
    | serve item =>
      rw [hw] at h
      cases h
      exact .serve hw

/-- How often `main` has locked the buffer, has taken a slot and not filled it, and has inserted an
item and not announced it. -/
def MainPc.locked : MainPc → Nat
  | .insert _ | .unlock => 1
  | _ => 0

def MainPc.ownsSlot : MainPc → Nat
  | .lock _ | .insert _ => 1
  | _ => 0

def MainPc.owesItem : MainPc → Nat
  | .unlock | .postItems => 1
  | _ => 0

/-- The same for a worker, which takes an item and gives back a slot. -/
def WorkerPc.locked : WorkerPc → Nat
  | .remove | .unlock _ => 1
  | _ => 0

def WorkerPc.ownsItem : WorkerPc → Nat
  | .lock | .remove => 1
  | _ => 0

def WorkerPc.owesSlot : WorkerPc → Nat
  | .unlock _ | .postSlots _ => 1
  | _ => 0

/-- What the three semaphores count, with what the threads hold between their steps. -/
structure Balanced [Fintype ω] (n : Nat) (s : Sys ω) : Prop where
  mutex : s.sbuf.mutex + s.main.locked + total WorkerPc.locked s.workers = 1
  slots : s.sbuf.slots + s.main.ownsSlot + s.queue.inserted.length +
    total WorkerPc.owesSlot s.workers = n + s.queue.taken.length
  items : s.sbuf.items + s.main.owesItem + s.queue.taken.length +
    total WorkerPc.ownsItem s.workers = s.queue.inserted.length

section balance
variable [Fintype ω] {n : Nat} {s t : Sys ω}

omit [DecidableEq ω] in
/-- A step of `main` leaves what the workers hold. -/
theorem Balanced.main (h : Balanced n s) (hm : s.main = pc) (hw : t.workers = s.workers)
    (ht : t.queue.taken = s.queue.taken)
    (hmutex : t.sbuf.mutex + t.main.locked = s.sbuf.mutex + pc.locked)
    (hslots : t.sbuf.slots + t.main.ownsSlot + t.queue.inserted.length =
      s.sbuf.slots + pc.ownsSlot + s.queue.inserted.length)
    (hitems : t.sbuf.items + t.main.owesItem + s.queue.inserted.length =
      s.sbuf.items + pc.owesItem + t.queue.inserted.length) : Balanced n t := by
  obtain ⟨h1, h2, h3⟩ := h
  rw [hm] at h1 h2 h3
  refine ⟨?_, ?_, ?_⟩ <;> rw [hw]
  · omega
  · rw [ht]
    omega
  · rw [ht]
    omega

theorem Balanced.worker (h : Balanced n s) (hw : s.workers w = pc)
    (ht : t.workers = Function.update s.workers w pc') (hm : t.main = s.main)
    (hi : t.queue.inserted = s.queue.inserted)
    (hmutex : t.sbuf.mutex + pc'.locked = s.sbuf.mutex + pc.locked)
    (hslots : t.sbuf.slots + pc'.owesSlot + s.queue.taken.length =
      s.sbuf.slots + pc.owesSlot + t.queue.taken.length)
    (hitems : t.sbuf.items + pc'.ownsItem + t.queue.taken.length =
      s.sbuf.items + pc.ownsItem + s.queue.taken.length) : Balanced n t := by
  obtain ⟨h1, h2, h3⟩ := h
  have hlocked := total_update WorkerPc.locked s.workers w pc'
  have howes := total_update WorkerPc.owesSlot s.workers w pc'
  have howns := total_update WorkerPc.ownsItem s.workers w pc'
  rw [hw] at hlocked howes howns
  refine ⟨?_, ?_, ?_⟩ <;> rw [ht, hm]
  · omega
  · rw [hi]
    omega
  · rw [hi]
    omega

theorem Balanced.step (h : Balanced n s) (hs : Step s a t) : Balanced n t := by
  cases hs with
  | accept hm => exact h.main hm rfl rfl rfl rfl rfl
  | waitSlots hm hs => exact h.main hm rfl rfl rfl (by rw [hs]; rfl) rfl
  | lock hm hs => exact h.main hm rfl rfl (by rw [hs]; rfl) rfl rfl
  | @insert item hm =>
    refine h.main hm rfl rfl rfl ?_ ?_
    · simp only [List.length_append, List.length_singleton, MainPc.ownsSlot, Sbuf.insert]
      omega
    · simp only [List.length_append, List.length_singleton, MainPc.owesItem, Sbuf.insert]
      omega
  | unlock hm => exact h.main hm rfl rfl rfl rfl rfl
  | postItems hm => exact h.main hm rfl rfl rfl rfl rfl
  | waitItems hw hs => exact h.worker hw rfl rfl rfl rfl rfl (by rw [hs]; rfl)
  | lockWorker hw hs => exact h.worker hw rfl rfl rfl (by rw [hs]; rfl) rfl rfl
  | @remove w hw =>
    refine h.worker hw rfl rfl rfl rfl ?_ ?_
    · simp only [List.length_append, List.length_singleton, WorkerPc.owesSlot, Sbuf.remove]
      omega
    · simp only [List.length_append, List.length_singleton, WorkerPc.ownsItem, Sbuf.remove]
      omega
  | unlockWorker hw => exact h.worker hw rfl rfl rfl rfl rfl rfl
  | postSlots hw => exact h.worker hw rfl rfl rfl rfl rfl rfl
  | serve hw => exact h.worker hw rfl rfl rfl rfl rfl rfl

theorem balanced (h : (proxy ω n).Reachable s) : Balanced n s := by
  apply h.invariant
  · constructor <;>
      simp [proxy, sbufInit, total, MainPc.locked, MainPc.ownsSlot, MainPc.owesItem,
        WorkerPc.locked, WorkerPc.owesSlot, WorkerPc.ownsItem]
  · intro s a t _ hs _ hn
    exact hs.step (next_step hn)

end balance

/-- The connection that `main` has accepted and not yet inserted. -/
def MainPc.item : MainPc → Option Connection
  | .waitSlots item | .lock item | .insert item => some item
  | _ => none

/-- The two indices count what has been removed and inserted, and each item that has been inserted
and not removed is in the slot that it was put into. -/
structure Stored (n : Nat) (s : Sys ω) : Prop where
  size : s.sbuf.n = n
  front : s.sbuf.front = s.queue.taken.length
  rear : s.sbuf.rear = s.queue.inserted.length
  stored : ∀ j item, s.queue.taken.length ≤ j → s.queue.inserted[j]? = some item →
    s.sbuf.buf ((j + 1) % n) = item
  numbered : ∀ (j : Nat) (item : Connection), s.queue.inserted[j]? = some item → item.number = j
  accepted : ∀ item, s.main.item = some item → item.number = s.queue.inserted.length

/-- The index into the buffer that an increment gives, as long as it does not overflow. -/
theorem slot_eq (k n : Nat) (h : k + 1 < 2147483648) :
    int32 ((k : Int) + 1) = ((k + 1 : Nat) : Int) ∧
      (((k + 1 : Nat) : Int).tmod n).toNat = (k + 1) % n := by
  constructor
  · exact int32_eq (Int.natCast_nonneg (k + 1)) (Int.ofNat_lt.2 h)
  · rw [← Int.ofNat_tmod]
    exact Int.toNat_natCast _

omit [DecidableEq ω] in
theorem Stored.moved {s t : Sys ω} (h : Stored n s) (hq : t.queue = s.queue)
    (hb : t.sbuf.buf = s.sbuf.buf ∧ t.sbuf.n = s.sbuf.n ∧ t.sbuf.front = s.sbuf.front ∧
      t.sbuf.rear = s.sbuf.rear)
    (hm : ∀ item, t.main.item = some item → item.number = s.queue.inserted.length) :
    Stored n t := by
  obtain ⟨hbuf, hn, hf, hr⟩ := hb
  exact ⟨hn.trans h.size, by rw [hf, hq, h.front], by rw [hr, hq, h.rear],
    by rw [hq, hbuf]; exact h.stored, by rw [hq]; exact h.numbered, by rw [hq]; exact hm⟩

section queue
variable [Fintype ω] {n : Nat} {s t : Sys ω}

omit [DecidableEq ω] in
/-- The slot that `main` fills holds no item that is still to be removed. -/
theorem Stored.insert (h : Stored n s) (hb : Balanced n s) (hm : s.main = .insert item)
    (hi : s.queue.inserted.length + 1 < 2147483648) : Stored n { s with
      sbuf := s.sbuf.insert item
      queue.inserted := s.queue.inserted ++ [item]
      main := .unlock } := by
  obtain ⟨hrear, hslot⟩ := slot_eq s.queue.inserted.length n hi
  have hslots := hb.slots
  rw [hm] at hslots
  simp only [MainPc.ownsSlot] at hslots
  refine ⟨h.size, h.front, ?_, ?_, ?_, by simp [MainPc.item]⟩
  · simp only [Sbuf.insert, h.rear, hrear, List.length_append, List.length_singleton]
  · intro j item' hj hitem
    simp only [Sbuf.insert, h.rear, h.size, hrear, hslot]
    rcases getElem?_append_some hitem with ⟨hlt, hitem⟩ | ⟨rfl, rfl⟩
    · have hj' : s.queue.taken.length ≤ j := hj
      rw [Function.update_of_ne (mod_ne (Nat.succ_lt_succ hlt) (by omega))]
      exact h.stored j item' hj hitem
    · rw [Function.update_self]
  · intro j item' hitem
    rcases getElem?_append_some hitem with ⟨_, hitem⟩ | ⟨rfl, rfl⟩
    · exact h.numbered j item' hitem
    · exact h.accepted item' (by rw [hm]; rfl)

/-- A worker that removes an item gets the one that has waited longest. -/
theorem Stored.removed (h : Stored n s) (hb : Balanced n s) (hw : s.workers w = .remove)
    (hi : s.queue.inserted.length < 2147483648) :
    s.queue.inserted[s.queue.taken.length]? = some s.sbuf.remove.1 ∧
      s.sbuf.remove.2.front = s.queue.taken.length + 1 := by
  have hitems := hb.items
  have howns := le_total WorkerPc.ownsItem s.workers w
  rw [hw] at howns
  simp only [WorkerPc.ownsItem] at howns
  have hlt : s.queue.taken.length < s.queue.inserted.length := by omega
  obtain ⟨hfront, hslot⟩ := slot_eq s.queue.taken.length n (by omega)
  have hitem := List.getElem?_eq_getElem hlt
  simp only [Sbuf.remove, h.front, h.size, hfront, hslot]
  exact ⟨by rw [hitem, h.stored _ _ le_rfl hitem], by omega⟩

theorem Stored.step (h : Stored n s) (hb : Balanced n s) (hs : Step s a t)
    (hi : t.queue.inserted.length < 2147483647) : Stored n t := by
  have haccepted := h.accepted
  cases hs with
  | accept hm =>
    refine h.moved rfl ⟨rfl, rfl, rfl, rfl⟩ fun item he => ?_
    cases he
    rfl
  | waitSlots hm | lock hm =>
    rw [hm] at haccepted
    exact h.moved rfl ⟨rfl, rfl, rfl, rfl⟩ haccepted
  | insert hm =>
    simp only [List.length_append, List.length_singleton] at hi
    exact h.insert hb hm (by omega)
  | unlock hm | postItems hm => exact h.moved rfl ⟨rfl, rfl, rfl, rfl⟩ (by simp [MainPc.item])
  | @remove w hw =>
    obtain ⟨_, hfront⟩ := h.removed hb hw (by change s.queue.inserted.length < _ at hi; omega)
    refine ⟨h.size, ?_, h.rear, ?_, h.numbered, haccepted⟩
    · simp only [List.length_append, List.length_singleton, hfront]
      omega
    · intro j item hj
      simp only [List.length_append, List.length_singleton] at hj
      exact h.stored j item (by omega)
  | waitItems | lockWorker | unlockWorker | postSlots | serve =>
    exact h.moved rfl ⟨rfl, rfl, rfl, rfl⟩ haccepted

/-- What a step does to the buffer is a step of a queue with `n` places. -/
theorem Stored.queue_step (h : Stored n s) (hb : Balanced n s) (hs : Step s a t)
    (hi : t.queue.inserted.length < 2147483647) :
    t.queue = s.queue ∨ ∃ op, (Traffic.fifo ω Connection n).next s.queue op = some t.queue := by
  cases hs with
  | @insert item hm =>
    have hslots := hb.slots
    rw [hm] at hslots
    simp only [MainPc.ownsSlot] at hslots
    have hitems := hb.items
    have hfree : s.queue.waiting.length < n := by
      rw [Traffic.waiting_length]
      omega
    exact .inr ⟨.put item, if_pos hfree⟩
  | @remove w hw =>
    obtain ⟨hitem, _⟩ := h.removed hb hw (by change s.queue.inserted.length < _ at hi; omega)
    refine .inr ⟨.take w, ?_⟩
    simp only [Traffic.fifo, Traffic.head?_waiting, hitem, Option.map_some]
    rfl
  | _ => exact .inl rfl

omit [Fintype ω] in
theorem inserted_le (hs : Step s a t) : s.queue.inserted.length ≤ t.queue.inserted.length := by
  cases hs with
  | insert => simp
  | _ => exact le_rfl

/-- The buffer of `n` slots is a queue of `n` places, until the indices overflow. -/
theorem buffer_is_queue (h : (proxy ω n).Reachable s)
    (hi : s.queue.inserted.length < 2147483647) :
    Stored n s ∧ (Traffic.fifo ω Connection n).Reachable s.queue := by
  have hinv : s.queue.inserted.length < 2147483647 →
      Stored n s ∧ (Traffic.fifo ω Connection n).Reachable s.queue := by
    apply h.invariant (I := fun s : Sys ω => s.queue.inserted.length < 2147483647 →
      Stored n s ∧ (Traffic.fifo ω Connection n).Reachable s.queue)
    · intro _
      exact ⟨⟨rfl, rfl, rfl, by simp [proxy], by simp [proxy], by simp [proxy, MainPc.item]⟩,
        .start⟩
    · intro s a t hr hs _ hn hi
      have hstep := next_step hn
      obtain ⟨hst, hq⟩ := hs ((inserted_le hstep).trans_lt hi)
      refine ⟨hst.step (balanced hr) hstep hi, ?_⟩
      rcases hst.queue_step (balanced hr) hstep hi with he | ⟨op, hop⟩
      · rwa [he]
      · exact hq.step trivial hop
  exact hinv hi

end queue

/-- Connections are removed in the order in which they were inserted, each by one worker; those
that wait are still in their slots, and there are no more of them than slots. -/
theorem connections_handed_over [Fintype ω] {s : Sys ω} (h : (proxy ω sbufSize).Reachable s)
    (hi : s.queue.inserted.length < 2147483647) :
    s.queue.taken.map Prod.snd <+: s.queue.inserted ∧
      (s.queue.taken.map fun entry => entry.2.number).Nodup ∧
      (∀ j item, s.queue.taken.length ≤ j → s.queue.inserted[j]? = some item →
        s.sbuf.buf ((j + 1) % sbufSize) = item) ∧
      s.queue.waiting.length ≤ sbufSize := by
  obtain ⟨hst, hq⟩ := buffer_is_queue h hi
  have ho := Traffic.orderly hq
  have hnumbers : s.queue.inserted.map Connection.number = List.range s.queue.inserted.length := by
    apply List.ext_getElem (by simp)
    intro j hj _
    rw [List.length_map] at hj
    rw [List.getElem_map, List.getElem_range]
    exact hst.numbered j _ (List.getElem?_eq_getElem hj)
  exact ⟨ho.order, ho.taken_once Connection.number (hnumbers ▸ List.nodup_range), hst.stored,
    ho.bounded⟩

/-- Two connections come in, and the second worker takes the first one. -/
def twoConnections : List (Action (Fin 2)) :=
  [.accept 5, .main, .main, .main, .main, .main, .worker 1, .accept 6, .main, .worker 1, .worker 1,
    .worker 1, .main, .main, .main, .main]

theorem connections_handed_over_two : ∃ s : Sys (Fin 2),
    s.queue.taken = [(1, ⟨0, 5⟩)] ∧ s.queue.taken.map Prod.snd <+: s.queue.inserted ∧
      s.queue.waiting.length ≤ sbufSize := by
  obtain ⟨s, hs, htaken, hi⟩ := (proxy (Fin 2) sbufSize).exists_reach_of_exec (fun _ _ => True)
    twoConnections
    (P := fun s => s.queue.taken = [(1, ⟨0, 5⟩)] ∧ s.queue.inserted.length < 2147483647)
    (Machine.along_true _ _) (by decide +kernel)
  obtain ⟨horder, _, _, hbound⟩ := connections_handed_over hs hi
  exact ⟨s, htaken, horder, hbound⟩

end Cs324.ThreadPool
