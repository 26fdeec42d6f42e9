import Cs324.Base.Machine
import Cs324.Base.Threads
import Mathlib.Algebra.Order.BigOperators.Group.List
import Mathlib.Algebra.Order.Ring.Nat
import Mathlib.Data.List.ReduceOption
import Mathlib.Logic.Function.Basic

namespace Cs324.Csapp
set_option autoImplicit true

/-- A block of `malloc(sizeof(int))`, and the connection in it: `none` for the -1 of a failed
`accept`. -/
inductive Cell
  | free
  | unset
  | holds (connfd : Option Nat)
  deriving DecidableEq

/-- What `main` does next, with the block that it has allocated and what it has stored there. -/
inductive MainPc (α : Type)
  | malloc
  | accept (connfdp : α)
  | create (connfdp : α) (connfd : Option Nat)
  deriving DecidableEq

/-- What a thread does next. -/
inductive ThreadPc (α : Type)
  | load (vargp : α)
  | detach (vargp : α) (connfd : Option Nat)
  | free (vargp : α) (connfd : Option Nat)
  | echo (connfd : Option Nat)
  | close (connfd : Option Nat)
  | done (connfd : Option Nat)
  deriving DecidableEq

/-- A thread and, as a record, the connection that it was created for. -/
structure EchoThread (α : Type) where
  own : Option Nat
  pc : ThreadPc α
  deriving DecidableEq

/-- The server, with records of the blocks of the threads that could not be created and of whether
a block was used that is not allocated or not set. -/
structure EchoThreads (α : Type) where
  main : MainPc α
  heap : α → Cell
  accepted : Nat
  threads : List (EchoThread α)
  leaked : List α
  fault : Bool

inductive ThreadAction (α : Type)
  | malloc (block : α)
  | accept
  | acceptFails
  | create
  | createFails
  | step (i : Nat)
  deriving DecidableEq

section steps
variable {α : Type} [DecidableEq α]

namespace EchoThreads

def store (s : EchoThreads α) (block : α) (connfd : Option Nat) : EchoThreads α :=
  if s.heap block = .free then { s with fault := true }
  else { s with heap := Function.update s.heap block (.holds connfd) }

def release (s : EchoThreads α) (block : α) : EchoThreads α :=
  if s.heap block = .free then { s with fault := true }
  else { s with heap := Function.update s.heap block .free }

def set (s : EchoThreads α) (i : Nat) (thread : EchoThread α) (pc : ThreadPc α) : EchoThreads α :=
  { s with threads := s.threads.set i { thread with pc } }

/-- A step of a thread; `malloc` may give out any block that is not allocated. -/
def run (s : EchoThreads α) (i : Nat) (thread : EchoThread α) : Option (EchoThreads α) :=
  match thread.pc with
  | .load vargp =>
    match s.heap vargp with
    | .holds connfd => some (s.set i thread (.detach vargp connfd))
    | .free | .unset => some { s with fault := true }
  | .detach vargp connfd => some (s.set i thread (.free vargp connfd))
  | .free vargp connfd => some ((s.release vargp).set i thread (.echo connfd))
  | .echo connfd => some (s.set i thread (.close connfd))
  | .close connfd => some (s.set i thread (.done connfd))
  | .done _ => none

def next (s : EchoThreads α) : ThreadAction α → Option (EchoThreads α)
  | .malloc block =>
    if s.main = .malloc ∧ s.heap block = .free then
      some { s with main := .accept block, heap := Function.update s.heap block .unset }
    else none
  | .accept =>
    match s.main with
    | .accept connfdp =>
      some { s.store connfdp (some s.accepted) with
        main := .create connfdp (some s.accepted), accepted := s.accepted + 1 }
    | _ => none
  | .acceptFails =>
    match s.main with
    | .accept connfdp => some { s.store connfdp none with main := .create connfdp none }
    | _ => none
  | .create =>
    match s.main with
    | .create connfdp connfd =>
      some { s with main := .malloc, threads := s.threads ++ [⟨connfd, .load connfdp⟩] }
    | _ => none
  | .createFails =>
    match s.main with
    | .create connfdp _ => some { s with main := .malloc, leaked := connfdp :: s.leaked }
    | _ => none
  | .step i => (s.threads[i]?).bind (s.run i)

end EchoThreads

def echoThreads (α : Type) [DecidableEq α] : Machine (EchoThreads α) (ThreadAction α) where
  start := ⟨.malloc, fun _ => .free, 0, [], [], false⟩
  next := EchoThreads.next

/-- Whether a thread of the server still has a block to free. -/
def MainPc.owns : MainPc α → α → Nat
  | .malloc, _ => 0
  | .accept connfdp, block | .create connfdp _, block => if connfdp = block then 1 else 0

def ThreadPc.owns : ThreadPc α → α → Nat
  | .load vargp, block | .detach vargp _, block | .free vargp _, block =>
    if vargp = block then 1 else 0
  | .echo _, _ | .close _, _ | .done _, _ => 0

/-- The descriptor that a thread has read. -/
def ThreadPc.connfd : ThreadPc α → Option (Option Nat)
  | .load _ => none
  | .detach _ connfd | .free _ connfd | .echo connfd | .close connfd | .done connfd => some connfd

def EchoThreads.owners (s : EchoThreads α) (block : α) : Nat :=
  s.main.owns block + (s.threads.map fun thread => thread.pc.owns block).sum +
    s.leaked.count block

/-- What a step does; `keeps` is one of a thread that has read its descriptor. -/
inductive Runs (s : EchoThreads α) : ThreadAction α → EchoThreads α → Prop
  | malloc (hm : s.main = .malloc) (hfree : s.heap block = .free) : Runs s (.malloc block)
      { s with main := .accept block, heap := Function.update s.heap block .unset }
  | accept (hm : s.main = .accept connfdp) : Runs s .accept
      { s.store connfdp (some s.accepted) with
        main := .create connfdp (some s.accepted), accepted := s.accepted + 1 }
  | acceptFails (hm : s.main = .accept connfdp) : Runs s .acceptFails
      { s.store connfdp none with main := .create connfdp none }
  | create (hm : s.main = .create connfdp connfd) : Runs s .create
      { s with main := .malloc, threads := s.threads ++ [⟨connfd, .load connfdp⟩] }
  | createFails (hm : s.main = .create connfdp connfd) : Runs s .createFails
      { s with main := .malloc, leaked := connfdp :: s.leaked }
  | load (ht : s.threads[i]? = some thread) (hpc : thread.pc = .load vargp)
      (hheap : s.heap vargp = .holds connfd) :
      Runs s (.step i) (s.set i thread (.detach vargp connfd))
  | loadFaults (ht : s.threads[i]? = some thread) (hpc : thread.pc = .load vargp)
      (hheap : ∀ connfd, s.heap vargp ≠ .holds connfd) : Runs s (.step i) { s with fault := true }
  | free (ht : s.threads[i]? = some thread) (hpc : thread.pc = .free vargp connfd) :
      Runs s (.step i) ((s.release vargp).set i thread (.echo connfd))
  | keeps (ht : s.threads[i]? = some thread) (hread : thread.pc.connfd ≠ none)
      (hconnfd : pc.connfd = thread.pc.connfd) (howns : pc.owns = thread.pc.owns) :
      Runs s (.step i) (s.set i thread pc)

theorem next_runs {s t : EchoThreads α} (h : s.next a = some t) : Runs s a t := by
  cases a with
  | malloc block =>
    rw [EchoThreads.next, Option.ite_none_right_eq_some] at h
    obtain ⟨⟨hm, hfree⟩, h⟩ := h
    cases h
    exact .malloc hm hfree
  | accept =>
    cases hm : s.main with
    | accept connfdp =>
      simp only [EchoThreads.next, hm] at h
      cases h
      exact .accept hm
    | malloc | create => simp [EchoThreads.next, hm] at h
  | acceptFails =>
    cases hm : s.main with
    | accept connfdp =>
      simp only [EchoThreads.next, hm] at h
      cases h
      exact .acceptFails hm
    | malloc | create => simp [EchoThreads.next, hm] at h
  | create =>
    cases hm : s.main with
    | create connfdp connfd =>
      simp only [EchoThreads.next, hm] at h
      cases h
      exact .create hm
    | malloc | accept => simp [EchoThreads.next, hm] at h
  | createFails =>
    cases hm : s.main with
    | create connfdp connfd =>
      simp only [EchoThreads.next, hm] at h
      cases h
      exact .createFails hm
    | malloc | accept => simp [EchoThreads.next, hm] at h
  | step i =>
    obtain ⟨thread, ht, h⟩ := Option.bind_eq_some_iff.1 h
    rw [EchoThreads.run] at h
    cases hpc : thread.pc with
    | load vargp =>
      simp only [hpc] at h
      cases hheap : s.heap vargp with
      | holds connfd =>
        simp only [hheap] at h
        cases h
        exact .load ht hpc hheap
      | free | unset =>
        simp only [hheap] at h
        cases h
        exact .loadFaults ht hpc fun connfd he => by rw [hheap] at he; cases he
    | free vargp connfd =>
      simp only [hpc] at h
      cases h
      exact .free ht hpc
    | done connfd => simp [hpc] at h
    | detach vargp connfd | echo connfd | close connfd =>
      simp only [hpc] at h
      cases h
      exact .keeps ht (by rw [hpc]; exact nofun) (by rw [hpc]; rfl) (by rw [hpc]; rfl)

/-- Each block that is allocated belongs to `main` or to one thread, unless it is leaked, and holds
what `main` has stored there until the thread reads it. -/
structure Owned (s : EchoThreads α) : Prop where
  owners : ∀ block, s.owners block = if s.heap block = .free then 0 else 1
  given : ∀ {connfdp connfd}, s.main = .create connfdp connfd → s.heap connfdp = .holds connfd
  loads : ∀ thread ∈ s.threads, ∀ vargp, thread.pc = .load vargp →
    s.heap vargp = .holds thread.own
  own : ∀ thread ∈ s.threads, ∀ connfd, thread.pc.connfd = some connfd → connfd = thread.own
  fault : s.fault = false

variable {s t : EchoThreads α}

theorem owns_le (hm : thread ∈ s.threads) (block : α) :
    s.main.owns block + thread.pc.owns block ≤ s.owners block := by
  have hle := List.single_le_sum (fun _ _ => Nat.zero_le _) _
    (List.mem_map_of_mem (f := fun thread => thread.pc.owns block) hm)
  rw [EchoThreads.owners]
  omega

theorem owners_set (ht : s.threads[i]? = some thread) (pc : ThreadPc α) (block : α) :
    (s.set i thread pc).owners block + thread.pc.owns block = s.owners block + pc.owns block := by
  have hsum : ((s.set i thread pc).threads.map fun thread => thread.pc.owns block).sum +
      thread.pc.owns block = (s.threads.map fun thread => thread.pc.owns block).sum +
        pc.owns block := sum_map_set ht (fun thread => thread.pc.owns block) { thread with pc }
  have hmain : (s.set i thread pc).main = s.main := rfl
  have hleaked : (s.set i thread pc).leaked = s.leaked := rfl
  rw [EchoThreads.owners, EchoThreads.owners, hmain, hleaked]
  omega

omit [DecidableEq α] in
/-- A thread that is not the one of the step stays as it is. -/
theorem mem_set_threads {thread' : EchoThread α} (h : thread' ∈ (s.set i thread pc).threads) :
    thread' ∈ s.threads ∨ thread' = { thread with pc } := by
  rcases List.mem_or_eq_of_mem_set h with hm | he
  · exact .inl hm
  · exact .inr he

theorem Owned.allocated (h : Owned s) (hown : 1 ≤ s.owners block) :
    s.heap block ≠ .free ∧ s.owners block = 1 := by
  have howners := h.owners block
  split at howners
  · omega
  · exact ⟨‹_›, howners⟩

/-- What `main` stores its descriptor in is its own. -/
theorem Owned.accept (h : Owned s) (hm : s.main = .accept connfdp) (connfd : Option Nat)
    (accepted : Nat) :
    Owned { s.store connfdp connfd with main := .create connfdp connfd, accepted } := by
  have hmain : s.main.owns connfdp = 1 := by
    rw [hm]
    exact if_pos rfl
  have howned : 1 ≤ s.owners connfdp := by
    rw [EchoThreads.owners]
    omega
  obtain ⟨hne, hone⟩ := h.allocated howned
  rw [EchoThreads.store, if_neg hne]
  refine ⟨fun block => ?_, ?_, fun thread ht vargp hpc => ?_, h.own, h.fault⟩
  · have howners := h.owners block
    rw [EchoThreads.owners, hm] at howners
    by_cases hb : block = connfdp
    · subst hb
      rw [if_neg hne] at howners
      simpa [EchoThreads.owners, MainPc.owns] using howners
    · simpa [EchoThreads.owners, MainPc.owns, Function.update_of_ne hb] using howners
  · rintro _ _ ⟨⟩
    exact Function.update_self ..
  · have hother : vargp ≠ connfdp := by
      rintro rfl
      have hle := owns_le (s := s) ht vargp
      have hthread : thread.pc.owns vargp = 1 := by
        rw [hpc]
        exact if_pos rfl
      omega
    exact (Function.update_of_ne hother _ _).trans (h.loads thread ht vargp hpc)

/-- A step of a thread that has read its descriptor, or reads it. -/
theorem Owned.set (h : Owned s) (ht : s.threads[i]? = some thread)
    (howns : pc.owns = thread.pc.owns) (hconnfd : pc.connfd = some thread.own) :
    Owned (s.set i thread pc) := by
  refine ⟨fun block => ?_, h.given, fun thread' ht' vargp hpc => ?_,
    fun thread' ht' connfd hc => ?_, h.fault⟩
  · have hset := owners_set ht pc block
    have howners := h.owners block
    rw [howns] at hset
    exact (Nat.add_right_cancel hset).trans howners
  · rcases mem_set_threads ht' with hm | rfl
    · exact h.loads thread' hm vargp hpc
    · rw [show pc = .load vargp from hpc] at hconnfd
      cases hconnfd
  · rcases mem_set_threads ht' with hm | rfl
    · exact h.own thread' hm connfd hc
    · exact Option.some.inj (hc.symm.trans hconnfd)

/-- A block that is freed is one that no one else has. -/
theorem Owned.free (h : Owned s) (ht : s.threads[i]? = some thread)
    (hpc : thread.pc = .free vargp connfd) :
    Owned ((s.release vargp).set i thread (.echo connfd)) := by
  have hm := List.mem_of_getElem? ht
  have hthread : thread.pc.owns vargp = 1 := by
    rw [hpc]
    exact if_pos rfl
  have hle := owns_le hm vargp
  have howned : 1 ≤ s.owners vargp := by omega
  obtain ⟨hne, hone⟩ := h.allocated howned
  rw [EchoThreads.release, if_neg hne]
  let t : EchoThreads α :=
    { s with heap := Function.update s.heap vargp .free }.set i thread (.echo connfd)
  have howners (block) : t.owners block + (if vargp = block then 1 else 0) = s.owners block := by
    have hset : t.owners block + thread.pc.owns block = s.owners block + 0 :=
      owners_set ht (.echo connfd) block
    rw [hpc] at hset
    exact hset
  refine ⟨fun block => ?_, fun {connfdp connfd'} hmain => ?_, fun thread' ht' vargp' hpc' => ?_,
    fun thread' ht' connfd' hc => ?_, h.fault⟩
  · change t.owners block = if Function.update s.heap vargp .free block = .free then 0 else 1
    have hold := h.owners block
    have hsame := howners block
    by_cases hb : vargp = block
    · subst hb
      rw [if_pos rfl] at hsame
      rw [Function.update_self, if_pos rfl]
      omega
    · rw [if_neg hb] at hsame
      rw [Function.update_of_ne (Ne.symm hb)]
      omega
  · have hother : connfdp ≠ vargp := by
      rintro rfl
      have howns : s.main.owns connfdp = 1 := by
        rw [show s.main = .create connfdp connfd' from hmain]
        exact if_pos rfl
      omega
    exact (Function.update_of_ne hother _ _).trans (h.given hmain)
  · rcases mem_set_threads ht' with hm' | rfl
    · have hother : vargp' ≠ vargp := by
        rintro rfl
        have hle' := owns_le (s := t) ht' vargp'
        have hsame := howners vargp'
        rw [if_pos rfl] at hsame
        have howns : thread'.pc.owns vargp' = 1 := by
          rw [hpc']
          exact if_pos rfl
        omega
      exact (Function.update_of_ne hother _ _).trans (h.loads thread' hm' vargp' hpc')
    · cases hpc'
  · rcases mem_set_threads ht' with hm' | rfl
    · exact h.own thread' hm' connfd' hc
    · cases hc
      exact h.own thread hm connfd (by rw [hpc]; rfl)

theorem Owned.step (h : Owned s) (hs : Runs s a t) : Owned t := by
  cases hs with
  | @malloc new hm hfree =>
    refine ⟨fun block => ?_, nofun, fun thread ht vargp hpc => ?_, h.own, h.fault⟩
    · have howners := h.owners block
      rw [EchoThreads.owners, hm] at howners
      by_cases hb : block = new
      · subst hb
        rw [if_pos hfree] at howners
        simp only [EchoThreads.owners, MainPc.owns, ↓reduceIte, Function.update_self,
          reduceCtorEq] at howners ⊢
        omega
      · simpa [EchoThreads.owners, MainPc.owns, Function.update_of_ne hb, Ne.symm hb] using howners
    · have hheap := h.loads thread ht vargp hpc
      have hother : vargp ≠ new := by
        rintro rfl
        rw [hfree] at hheap
        cases hheap
      exact (Function.update_of_ne hother _ _).trans hheap
  | accept hm => exact h.accept hm _ _
  | acceptFails hm => exact h.accept hm _ _
  | create hm =>
    refine ⟨fun block => ?_, nofun, fun thread ht vargp hpc => ?_, fun thread ht connfd hc => ?_,
      h.fault⟩
    · have howners := h.owners block
      rw [EchoThreads.owners, hm] at howners
      simp only [EchoThreads.owners, MainPc.owns, ThreadPc.owns, List.map_append, List.sum_append,
        List.map_cons, List.map_nil, List.sum_cons, List.sum_nil] at howners ⊢
      omega
    · rcases List.mem_append.1 ht with ht | ht
      · exact h.loads thread ht vargp hpc
      · cases List.mem_singleton.1 ht
        cases hpc
        exact h.given hm
    · rcases List.mem_append.1 ht with ht | ht
      · exact h.own thread ht connfd hc
      · cases List.mem_singleton.1 ht
        cases hc
  | @createFails connfdp connfd hm =>
    refine ⟨fun block => ?_, nofun, h.loads, h.own, h.fault⟩
    have howners := h.owners block
    rw [EchoThreads.owners, hm] at howners
    simp only [EchoThreads.owners, MainPc.owns, List.count_cons, beq_iff_eq] at howners ⊢
    omega
  | load ht hpc hheap =>
    have hloads := h.loads _ (List.mem_of_getElem? ht) _ hpc
    rw [hheap] at hloads
    cases hloads
    exact h.set ht (by rw [hpc]; rfl) rfl
  | loadFaults ht hpc hheap => exact absurd (h.loads _ (List.mem_of_getElem? ht) _ hpc) (hheap _)
  | free ht hpc => exact h.free ht hpc
  | keeps ht hread hconnfd howns =>
    obtain ⟨connfd, hc⟩ := Option.ne_none_iff_exists'.1 hread
    have hown := h.own _ (List.mem_of_getElem? ht) connfd hc
    exact h.set ht howns (hconnfd.trans (hown ▸ hc))

theorem owned (h : (echoThreads α).Reachable s) : Owned s := by
  apply h.invariant
  · exact ⟨fun _ => rfl, nofun, nofun, nofun, rfl⟩
  · intro s a t _ hs _ hn
    exact hs.step (next_runs hn)

/-- The connection that is about to get a thread. -/
def MainPc.held : MainPc α → Option Nat
  | .create _ connfd => connfd
  | _ => none

/-- The connections of the threads, in the order in which these were created, and that of `main`. -/
def EchoThreads.served (s : EchoThreads α) : List Nat :=
  (s.threads.map EchoThread.own).reduceOption ++ s.main.held.toList

omit [DecidableEq α] in
theorem set_served_threads (ht : s.threads[i]? = some thread) (pc : ThreadPc α) :
    (s.set i thread pc).served = s.served := by
  change ((s.threads.set i { thread with pc }).map EchoThread.own).reduceOption ++ _ = _
  rw [map_set_of_eq ht (show ({ thread with pc } : EchoThread α).own = thread.own from rfl)]
  rfl

theorem store_threads (s : EchoThreads α) (block : α) (connfd : Option Nat) :
    (s.store block connfd).threads = s.threads := by
  rw [EchoThreads.store]
  split <;> rfl

theorem release_parts (s : EchoThreads α) (block : α) :
    (s.release block).threads = s.threads ∧ (s.release block).served = s.served ∧
      (s.release block).accepted = s.accepted := by
  rw [EchoThreads.release]
  split <;> exact ⟨rfl, rfl, rfl⟩

/-- No connection has two threads, and they are created in the order of the connections. -/
theorem threads_served (h : (echoThreads α).Reachable s) :
    s.served.Sublist (List.range s.accepted) := by
  apply h.invariant
  · exact .refl _
  · intro s a t _ hs _ hn
    cases next_runs hn with
    | malloc hm =>
      rw [EchoThreads.served, hm] at hs
      exact hs
    | accept hm =>
      rw [EchoThreads.served, hm] at hs
      rw [EchoThreads.served, store_threads, List.range_succ]
      simpa [MainPc.held] using hs
    | acceptFails hm =>
      rw [EchoThreads.served, hm] at hs
      rw [EchoThreads.served, store_threads]
      rw [EchoThreads.store]
      split <;> exact hs
    | @create connfdp connfd hm =>
      rw [EchoThreads.served, hm] at hs
      rw [EchoThreads.served, List.map_append, List.reduceOption_append]
      cases connfd <;> simpa [MainPc.held, List.reduceOption] using hs
    | createFails hm =>
      refine .trans ?_ hs
      rw [EchoThreads.served, EchoThreads.served]
      exact List.Sublist.append_left (by simp [MainPc.held]) _
    | load ht | keeps ht => exact set_served_threads ht _ ▸ hs
    | loadFaults => exact hs
    | @free i thread vargp connfd ht hpc =>
      obtain ⟨hthreads, hserved, haccepted⟩ := release_parts s vargp
      rw [set_served_threads (hthreads ▸ ht), hserved]
      change s.served.Sublist (List.range (s.release vargp).accepted)
      rw [haccepted]
      exact hs

/-- However `main` and the threads interleave, and whichever free block `malloc` gives out, no block
is used unless it is allocated and set, none is freed twice, each one that is not freed has one
owner, and each thread serves the connection that it was created for, which no other thread does. -/
theorem echo_threads_owned (s : EchoThreads α) (h : (echoThreads α).Reachable s) :
    s.fault = false ∧ (∀ block, s.owners block = if s.heap block = .free then 0 else 1) ∧
      (∀ thread ∈ s.threads, ∀ connfd, thread.pc.connfd = some connfd → connfd = thread.own) ∧
      s.served.Sublist (List.range s.accepted) :=
  ⟨(owned h).fault, (owned h).owners, (owned h).own, threads_served h⟩

end steps

/-- Two connections, for which `malloc` gives out the same block. -/
def sameBlock : List (ThreadAction Bool) :=
  [.malloc true, .accept, .create, .step 0, .step 0, .step 0, .malloc true, .accept, .create,
    .step 1, .step 0]

theorem same_block_owned : ∃ s : EchoThreads Bool,
    s.threads = [⟨some 0, .close (some 0)⟩, ⟨some 1, .detach true (some 1)⟩] ∧ s.fault = false ∧
      (∀ block, s.owners block = if s.heap block = .free then 0 else 1) ∧
      (∀ thread ∈ s.threads, ∀ connfd, thread.pc.connfd = some connfd → connfd = thread.own) ∧
      s.served.Sublist (List.range s.accepted) := by
  obtain ⟨s, hr, hp⟩ := (echoThreads Bool).exists_reach_of_exec (fun _ _ => True) sameBlock
    (P := fun s => s.threads = [⟨some 0, .close (some 0)⟩, ⟨some 1, .detach true (some 1)⟩])
    (Machine.along_true _ _) (by decide)
  exact ⟨s, hp, echo_threads_owned s hr⟩

end Cs324.Csapp
