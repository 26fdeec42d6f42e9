import Cs324.Base.CLib
import Cs324.Base.Fifo
import Cs324.Base.Threads

namespace Cs324.ThreadPool
set_option autoImplicit true

def sbufSize : Nat := 20

/-- A descriptor that `accept` returned. The number tells connections apart that had the same
descriptor one after the other; the code does not have it. -/
structure Connection where
  number : Nat
  fd : Int
  deriving DecidableEq

/-- `sbuf_t`. -/
structure Sbuf where
  buf : Nat → Connection
  n : Nat
  front : Int
  rear : Int
  mutex : Nat
  slots : Nat
  items : Nat

def sbufInit (n : Nat) : Sbuf where
  buf := fun _ => ⟨0, 0⟩
  n
  front := 0
  rear := 0
  mutex := 1
  slots := n
  items := 0

/-- `sp->buf[(++sp->rear)%(sp->n)] = item`. -/
def Sbuf.insert (sp : Sbuf) (item : Connection) : Sbuf :=
  let rear := int32 (sp.rear + 1)
  { sp with rear, buf := Function.update sp.buf (rear.tmod sp.n).toNat item }

/-- `item = sp->buf[(++sp->front)%(sp->n)]`. -/
def Sbuf.remove (sp : Sbuf) : Connection × Sbuf :=
  let front := int32 (sp.front + 1)
  (sp.buf (front.tmod sp.n).toNat, { sp with front })

/-- What `main` does next: the call of `accept`, or a step of `sbuf_insert`. -/
inductive MainPc
  | accept
  | waitSlots (item : Connection)
  | lock (item : Connection)
  | insert (item : Connection)
  | unlock
  | postItems
  deriving DecidableEq

/-- What a worker does next: a step of `sbuf_remove`, or its connection. -/
inductive WorkerPc
  | waitItems
  | lock
  | remove
  | unlock (item : Connection)
  | postSlots (item : Connection)
  | serve (connfd : Connection)
  deriving DecidableEq

/-- `queue` has what has been inserted and removed so far. -/
structure Sys (ω : Type) where
  sbuf : Sbuf
  main : MainPc
  workers : ω → WorkerPc
  queue : Traffic ω Connection

inductive Action (ω : Type)
  | accept (connfd : Int)
  | main
  | worker (w : ω)
  deriving DecidableEq

variable {ω : Type} [DecidableEq ω]

def Sys.moved (s : Sys ω) (w : ω) (pc : WorkerPc) : Sys ω :=
  { s with workers := Function.update s.workers w pc }

/-- A thread at `sem_wait` has no step while the semaphore is 0. -/
def Sys.next (s : Sys ω) : Action ω → Option (Sys ω)
  | .accept connfd =>
    match s.main with
    | .accept => some { s with main := .waitSlots ⟨s.queue.inserted.length, connfd⟩ }
    | _ => none
  | .main =>
    match s.main with
    | .accept => none
    | .waitSlots item =>
      (semWait s.sbuf.slots).map fun slots => { s with sbuf.slots := slots, main := .lock item }
    | .lock item =>
      (semWait s.sbuf.mutex).map fun mutex => { s with sbuf.mutex := mutex, main := .insert item }
    | .insert item =>
      some { s with
        sbuf := s.sbuf.insert item
        queue.inserted := s.queue.inserted ++ [item]
        main := .unlock }
    | .unlock => some { s with sbuf.mutex := semPost s.sbuf.mutex, main := .postItems }
    | .postItems => some { s with sbuf.items := semPost s.sbuf.items, main := .accept }
  | .worker w =>
    match s.workers w with
    | .waitItems =>
      (semWait s.sbuf.items).map fun items => { s.moved w .lock with sbuf.items := items }
    | .lock =>
      (semWait s.sbuf.mutex).map fun mutex => { s.moved w .remove with sbuf.mutex := mutex }
    | .remove =>
      let (item, sbuf) := s.sbuf.remove
      some { s.moved w (.unlock item) with
        sbuf
        queue.taken := s.queue.taken ++ [(w, item)] }
    | .unlock item =>
      some { s.moved w (.postSlots item) with sbuf.mutex := semPost s.sbuf.mutex }
    | .postSlots item =>
      some { s.moved w (.serve item) with sbuf.slots := semPost s.sbuf.slots }
    | .serve _ => some (s.moved w .waitItems)

/-- `main` with a buffer of `n` slots and the workers `ω`. -/
def proxy (ω : Type) [DecidableEq ω] (n : Nat) : Machine (Sys ω) (Action ω) where
  start := ⟨sbufInit n, .accept, fun _ => .waitItems, ⟨[], []⟩⟩
  next := Sys.next

end Cs324.ThreadPool
