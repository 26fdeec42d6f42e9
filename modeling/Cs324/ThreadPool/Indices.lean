import Cs324.ThreadPool.Handover

namespace Cs324.ThreadPool
set_option autoImplicit true

/-- The index of `sbuf_insert`, `(++sp->rear)%(sp->n)`, with the sign of `rear`. -/
def Sbuf.insertIndex (sp : Sbuf) : Int := (int32 (sp.rear + 1)).tmod sp.n

/-- The index of `sbuf_remove`, `(++sp->front)%(sp->n)`. -/
def Sbuf.removeIndex (sp : Sbuf) : Int := (int32 (sp.front + 1)).tmod sp.n

/-- The indices of the insertions and of the removals so far. -/
structure Indices where
  inserted : List Int
  removed : List Int
  deriving DecidableEq

variable {ω : Type} [DecidableEq ω]

omit [DecidableEq ω] in
/-- With the index that a step uses. -/
def Indices.after (i : Indices) (s : Sys ω) : Action ω → Indices
  | .accept _ => i
  | .main =>
    match s.main with
    | .insert _ => { i with inserted := i.inserted ++ [s.sbuf.insertIndex] }
    | _ => i
  | .worker w =>
    match s.workers w with
    | .remove => { i with removed := i.removed ++ [s.sbuf.removeIndex] }
    | _ => i

/-- The proxy, with the indices that it has used. -/
def indexedProxy (ω : Type) [DecidableEq ω] (n : Nat) :
    Machine (Sys ω × Indices) (Action ω) where
  start := ((proxy ω n).start, ⟨[], []⟩)
  next s a := (s.1.next a).map fun t => (t, s.2.after s.1 a)

/-- Every index is one of a slot, the `k`th removal is from the slot of the `k`th insertion, and
`n` insertions one after the other go to `n` slots. -/
structure InSlots (n : Nat) (i : Indices) : Prop where
  inserted : ∀ index ∈ i.inserted, 0 ≤ index ∧ index < n
  removed : ∀ index ∈ i.removed, 0 ≤ index ∧ index < n
  same : ∀ (k : Nat) a b, i.inserted[k]? = some a → i.removed[k]? = some b → a = b
  distinct : ∀ (j k : Nat) a b, j < k → k < j + n →
    i.inserted[j]? = some a → i.inserted[k]? = some b → a ≠ b

theorem indexed_reachable {s : Sys ω × Indices} (h : (indexedProxy ω n).Reachable s) :
    (proxy ω n).Reachable s.1 := by
  apply h.invariant (I := fun s => (proxy ω n).Reachable s.1)
  · exact .start
  · intro s a t _ hs _ hn
    obtain ⟨u, hu, rfl⟩ := Option.map_eq_some_iff.1 hn
    exact hs.step trivial hu

/-- The two counters, and the indices that they have given. -/
structure Counted (n : Nat) (s : Sys ω) (i : Indices) : Prop where
  size : s.sbuf.n = n
  rear : s.sbuf.rear = int32 s.queue.inserted.length
  front : s.sbuf.front = int32 s.queue.taken.length
  inserted : i.inserted =
    (List.range s.queue.inserted.length).map fun k => counterIndex n (k + 1)
  removed : i.removed = (List.range s.queue.taken.length).map fun k => counterIndex n (k + 1)

section counted
variable {n : Nat} {s t : Sys ω} {i : Indices}

theorem Counted.step (h : Counted n s i) (hs : Step s a t) : Counted n t (i.after s a) := by
  obtain ⟨hn, hrear, hfront, hins, hrem⟩ := h
  cases hs with
  | insert hm =>
    have hcount := int32_succ s.queue.inserted.length
    simp only [Indices.after, hm]
    refine ⟨hn, ?_, hfront, ?_, hrem⟩
    · simp only [Sbuf.insert, hrear, List.length_append, List.length_singleton, hcount]
    · simp only [Sbuf.insertIndex, hn, hrear, hins, hcount, List.length_append,
        List.length_singleton, List.range_succ, List.map_append, List.map_singleton]
      rfl
  | remove hw =>
    have hcount := int32_succ s.queue.taken.length
    simp only [Indices.after, hw]
    refine ⟨hn, hrear, ?_, hins, ?_⟩
    · simp only [Sbuf.remove, hfront, List.length_append, List.length_singleton, hcount]
    · simp only [Sbuf.removeIndex, hn, hfront, hrem, hcount, List.length_append,
        List.length_singleton, List.range_succ, List.map_append, List.map_singleton]
      rfl
  | accept => exact ⟨hn, hrear, hfront, hins, hrem⟩
  | waitSlots hm | lock hm | unlock hm | postItems hm =>
    simp only [Indices.after, hm]
    exact ⟨hn, hrear, hfront, hins, hrem⟩
  | waitItems hw | lockWorker hw | unlockWorker hw | postSlots hw | serve hw =>
    simp only [Indices.after, hw]
    exact ⟨hn, hrear, hfront, hins, hrem⟩

theorem counted {s : Sys ω × Indices} (h : (indexedProxy ω n).Reachable s) :
    Counted n s.1 s.2 := by
  have hzero : 0 = int32 (0 : Nat) := by decide
  apply h.invariant (I := fun s => Counted n s.1 s.2)
  · exact ⟨rfl, hzero, hzero, rfl, rfl⟩
  · intro s a t _ hs _ hn
    obtain ⟨u, hu, rfl⟩ := Option.map_eq_some_iff.1 hn
    exact hs.step (next_step hu)

omit [DecidableEq ω] in
theorem getElem?_calls (h : ((List.range m).map fun k => counterIndex n (k + 1))[k]? = some index) :
    k < m ∧ counterIndex n (k + 1) = index := by
  obtain ⟨hk, he⟩ := List.getElem?_eq_some_iff.1 h
  rw [List.length_map, List.length_range] at hk
  rw [List.getElem_map, List.getElem_range] at he
  exact ⟨hk, he⟩

omit [DecidableEq ω] in
/-- The calls of a run that has not come past the wrap. -/
theorem Counted.inSlots (h : Counted n s i) (hn : 1 ≤ n)
    (hle : s.queue.taken.length ≤ s.queue.inserted.length)
    (hb : BeforeWrap n s.queue.inserted.length) : InSlots n i := by
  obtain ⟨-, -, -, hins, hrem⟩ := h
  have hbounds : ∀ m ≤ s.queue.inserted.length,
      ∀ index ∈ (List.range m).map fun k => counterIndex n (k + 1), 0 ≤ index ∧ index < n := by
    intro m hm index hindex
    obtain ⟨k, hk, rfl⟩ := List.mem_map.1 hindex
    exact counterIndex_bounds hb hn (Nat.le_trans (List.mem_range.1 hk) hm)
  refine ⟨hins ▸ hbounds _ le_rfl, hrem ▸ hbounds _ hle, fun k a b ha hb' => ?_,
    fun j k a b hjk hk ha hb' => ?_⟩
  · rw [hins] at ha
    rw [hrem] at hb'
    exact (getElem?_calls ha).2.symm.trans (getElem?_calls hb').2
  · rw [hins] at ha hb'
    obtain ⟨_, rfl⟩ := getElem?_calls ha
    obtain ⟨hk', rfl⟩ := getElem?_calls hb'
    exact counterIndex_ne hb (Nat.succ_lt_succ hjk) (by omega) hk'

end counted

/-- Every thread waits for the next connection. -/
structure Idle (n : Nat) (s : Sys ω) : Prop where
  main : s.main = .accept
  workers : s.workers = fun _ => .waitItems
  mutex : s.sbuf.mutex = 1
  slots : s.sbuf.slots = n
  items : s.sbuf.items = 0

/-- A connection comes in, and a worker serves it. -/
def round (connfd : Int) (w : ω) : List (Action ω) :=
  .accept connfd :: (List.replicate 5 .main ++ List.replicate 6 (.worker w))

theorem exec_round (h : Idle (n + 1) s) (m : Nat) (connfd : Int) (w : ω) :
    ∃ t, (proxy ω m).exec s (round connfd w) = some t ∧ Idle (n + 1) t ∧
      t.queue.inserted.length = s.queue.inserted.length + 1 := by
  obtain ⟨⟨buf, size, front, rear, mutex, slots, items⟩, main, workers, queue⟩ := s
  obtain ⟨rfl, rfl, rfl, rfl, rfl⟩ := h
  simp only [round, List.replicate, List.cons_append, List.nil_append, Machine.exec, proxy,
    Sys.next, semWait, semPost, Sys.moved, Sbuf.insert, Sbuf.remove, Option.bind_some,
    Option.map_some, Function.update_self, Function.update_idem, Nat.succ_ne_zero, if_false]
  exact ⟨_, rfl, ⟨rfl, Function.update_eq_self _ _, rfl, rfl, rfl⟩, List.length_append⟩

/-- The proxy goes on for as long as connections come in. -/
theorem connections_served (n k : Nat) (w : ω) :
    ∃ s, (proxy ω (n + 1)).Reachable s ∧ Idle (n + 1) s ∧ s.queue.inserted.length = k := by
  induction k with
  | zero => exact ⟨_, .start, ⟨rfl, rfl, rfl, rfl, rfl⟩, rfl⟩
  | succ k ih =>
    obtain ⟨s, hs, hidle, rfl⟩ := ih
    obtain ⟨t, ht, hidle, hcount⟩ := exec_round hidle (n + 1) 4 w
    exact ⟨t, hs.exec (Machine.along_true _ _) ht, hidle, hcount⟩

theorem exists_indexed {s : Sys ω} (h : (proxy ω n).Reachable s) :
    ∃ i, (indexedProxy ω n).Reachable (s, i) := by
  apply h.invariant (I := fun s : Sys ω => ∃ i, (indexedProxy ω n).Reachable (s, i))
  · exact ⟨_, .start⟩
  · rintro s a t _ ⟨i, hi⟩ _ hn
    exact ⟨i.after s a, hi.step trivial (Option.map_eq_some_iff.2 ⟨t, hn, rfl⟩)⟩

/-- The indices of a run stay within the buffer exactly until the counters wrap. -/
theorem indices_in_slots_iff [Fintype ω] {n : Nat} {s : Sys ω} {i : Indices} (hn : 1 ≤ n)
    (h : (indexedProxy ω n).Reachable (s, i)) :
    InSlots n i ↔ BeforeWrap n s.queue.inserted.length := by
  have hcounted := counted h
  constructor
  · intro hslots
    by_contra hwrap
    obtain ⟨k, hk, hneg⟩ := exists_negative hwrap
    have hmem : counterIndex n (k + 1) ∈ i.inserted := by
      rw [hcounted.inserted]
      exact List.mem_map.2 ⟨k, List.mem_range.2 hk, rfl⟩
    have hpos := (hslots.inserted _ hmem).1
    omega
  · intro hb
    have hitems := (balanced (indexed_reachable h)).items
    exact hcounted.inSlots hn (by omega) hb

/-- The last connection before the wrap. -/
theorem indices_in_slots_last : ∃ (s : Sys (Fin 100)) (i : Indices),
    (indexedProxy (Fin 100) sbufSize).Reachable (s, i) ∧
      s.queue.inserted.length = 2147483647 ∧ InSlots sbufSize i := by
  obtain ⟨s, hs, -, hcount⟩ := connections_served 19 2147483647 (0 : Fin 100)
  obtain ⟨i, hi⟩ := exists_indexed hs
  have hb : BeforeWrap sbufSize s.queue.inserted.length := .inr (.inl (by omega))
  exact ⟨s, i, hi, hcount, (indices_in_slots_iff (by decide) hi).2 hb⟩

/-- The next one is stored before the buffer. -/
theorem index_below_buffer : ∃ (s : Sys (Fin 100)) (i : Indices),
    (indexedProxy (Fin 100) sbufSize).Reachable (s, i) ∧
      i.inserted[2147483647]? = some (-8) ∧ ¬InSlots sbufSize i := by
  obtain ⟨s, hs, -, hcount⟩ := connections_served 19 2147483648 (0 : Fin 100)
  obtain ⟨i, hi⟩ := exists_indexed hs
  have hlast : i.inserted[2147483647]? = some (-8) := by
    have hindex : counterIndex sbufSize (2147483647 + 1) = -8 := by decide
    rw [(counted hi).inserted, hcount, List.getElem?_map, List.getElem?_range (by decide)]
    exact congrArg some hindex
  refine ⟨s, i, hi, hlast, fun h => ?_⟩
  exact absurd (h.inserted _ (List.mem_of_getElem? hlast)).1 (by decide)

end Cs324.ThreadPool
