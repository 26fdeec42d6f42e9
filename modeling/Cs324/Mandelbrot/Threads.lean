import Cs324.Base.Block
import Cs324.Base.Machine
import Cs324.Mandelbrot.Orig
import Mathlib.Data.Vector.Defs
import Mathlib.Logic.Function.Basic

namespace Cs324.Mandelbrot
set_option autoImplicit true

/-- The variables that all threads share: those declared before the loop that `private` does not
name. -/
structure Vars (D : Type*) where
  x : D
  y : D
  k : Nat
  offset : Int

/-- What a statement stores in a shared variable. -/
inductive Store (D : Type*)
  | none
  | x (value : D)
  | y (value : D)
  | k (value : Nat)
  | offset (value : Int)

def Store.apply (m : Vars D) : Store D → Vars D
  | .none => m
  | .x value => { m with x := value }
  | .y value => { m with y := value }
  | .k value => { m with k := value }
  | .offset value => { m with offset := value }

/-- The statement that a thread is about to execute. `i = 0` goes with the statement before it, and
the declarations of `u`, `v`, `u2` and `v2` with the one behind them. -/
inductive Pc
  | nextRow
  | setY
  | testI
  | setX
  | setK
  | testK
  | setV
  | setU
  | setU2
  | setV2
  | incK
  | setOffset
  | testPixel
  | copyBlack
  | setColor (n : Nat)
  | copyColor
  | incI
  | done
  deriving DecidableEq

/-- What a thread has to itself: the rows that it has still to do, the private variables and those
declared inside the loop. -/
structure Local (D : Type*) where
  pc : Pc
  rows : List Nat
  j : Nat
  i : Nat
  u : D
  v : D
  u2 : D
  v2 : D
  color : List UInt8

/-- What a statement does: the thread after it, what it stores in a shared variable, and the bytes
that it copies into `buf`. -/
structure Effect (D : Type*) where
  thread : Local D
  store : Store D
  copy : Option (Int × List UInt8)

/-- The effect of a statement that touches nothing that is shared. -/
def Effect.inside (l : Local D) : Effect D := ⟨l, .none, none⟩

def Effect.stores (l : Local D) (store : Store D) : Effect D := ⟨l, store, none⟩

def Effect.copies (l : Local D) (offset : Int) (bytes : List UInt8) : Effect D :=
  ⟨l, .none, some (offset, bytes)⟩

@[simp] theorem Effect.inside_thread (l : Local D) : (Effect.inside l).thread = l := rfl

@[simp] theorem Effect.stores_thread (l : Local D) (store : Store D) :
    (Effect.stores l store).thread = l := rfl

/-- One statement of the loop, where the shared variables are `m`. -/
def exec (A : Arithmetic D) (p : Picture) (m : Vars D) (l : Local D) : Option (Effect D) :=
  match l.pc with
  | .nextRow =>
    match l.rows with
    | [] => some (.inside { l with pc := .done })
    | j :: rows => some (.inside { l with pc := .setY, j, rows })
  | .setY => some (.stores { l with pc := .testI, i := 0 } (.y (A.yAt l.j)))
  | .testI => some (.inside { l with pc := if (l.i : Int) < p.xres then .setX else .nextRow })
  | .setX =>
    let l := { l with
      pc := .setK
      u := A.zero
      v := A.zero
      u2 := A.square A.zero
      v2 := A.square A.zero }
    some (.stores l (.x (A.xAt l.i)))
  | .setK => some (.stores { l with pc := .testK } (.k 1))
  | .testK =>
    some (.inside { l with
      pc := if m.k < p.maxiter.toNat ∧ A.inside l.u2 l.v2 then .setV else .setOffset })
  | .setV => some (.inside { l with pc := .setU, v := A.nextV l.u l.v m.y })
  | .setU => some (.inside { l with pc := .setU2, u := A.nextU l.u2 l.v2 m.x })
  | .setU2 => some (.inside { l with pc := .setV2, u2 := A.square l.u })
  | .setV2 => some (.inside { l with pc := .incK, v2 := A.square l.v })
  | .incK => some (.stores { l with pc := .testK } (.k (m.k + 1)))
  | .setOffset =>
    some (.stores { l with pc := .testPixel }
      (.offset (int32 ((l.j * p.xres + l.i) * pixelSize))))
  | .testPixel =>
    if p.maxiter.toNat ≤ m.k then some (.inside { l with pc := .copyBlack })
    else some (.inside { l with pc := .setColor 0, color := [] })
  | .copyBlack => some (.copies { l with pc := .incI } m.offset black)
  | .setColor n =>
    some (.inside { l with
      pc := if n + 1 < pixelSize then .setColor (n + 1) else .copyColor
      color := l.color ++ [colorByte m.k n] })
  | .copyColor => some (.copies { l with pc := .incI } m.offset l.color)
  | .incI => some (.inside { l with pc := .testI, i := l.i + 1 })
  | .done => none

/-- `memcpy` into `buf`. -/
def copyTo (buf : List UInt8) : Option (Int × List UInt8) → Option (List UInt8)
  | none => some buf
  | some (offset, bytes) => if 0 ≤ offset then storeIn buf offset.toNat bytes else none

/-- The team of threads. `own` is not in the program: for each thread, the shared variables as its
own statements alone would have set them. -/
structure Sys (T D : Type*) where
  vars : Vars D
  buf : List UInt8
  threads : T → Local D
  own : T → Vars D

/-- Thread `t` executes its next statement. -/
def Sys.next [DecidableEq T] (A : Arithmetic D) (p : Picture) (s : Sys T D) (t : T) :
    Option (Sys T D) := do
  let e ← exec A p s.vars (s.threads t)
  let buf ← copyTo s.buf e.copy
  return {
    vars := e.store.apply s.vars
    buf
    threads := Function.update s.threads t e.thread
    own := Function.update s.own t (e.store.apply (s.own t)) }

/-- The rows that each thread gets, in the order in which it does them. -/
structure Schedule (T : Type*) (yres : Int) where
  rows : T → List Nat
  nodup : ∀ t, (rows t).Nodup
  disjoint : ∀ t t' j, j ∈ rows t → j ∈ rows t' → t = t'
  covers : ∀ j, (∃ t, j ∈ rows t) ↔ (j : Int) < yres

theorem Schedule.lt (schedule : Schedule T yres) (h : j ∈ schedule.rows t) : j < yres.toNat := by
  have := (schedule.covers j).1 ⟨t, h⟩
  omega

/-- `BYTE_RES`, also the count that `fwrite` gets. -/
def Picture.byteRes (p : Picture) : Int := int32 (p.xres * p.yres * pixelSize)

def startThread (A : Arithmetic D) (rows : List Nat) : Local D :=
  ⟨.nextRow, rows, 0, 0, A.zero, A.zero, A.zero, A.zero, []⟩

/-- The parallel loop. `x`, `y` and `k` have not been set before it; `block` is what `malloc`
returns. -/
def mandelbrot [DecidableEq T] (A : Arithmetic D) (p : Picture) (schedule : Schedule T p.yres)
    (x y : D) (k : Nat) (block : List.Vector UInt8 p.byteRes.toNat) : Machine (Sys T D) T where
  start :=
    { vars := ⟨x, y, k, 0⟩
      buf := block.1
      threads := fun t => startThread A (schedule.rows t)
      own := fun _ => ⟨x, y, k, 0⟩ }
  next := Sys.next A p

/-- Each shared variable that a statement reads holds what its thread has stored last. -/
def Pc.Agrees (m own : Vars D) : Pc → Prop
  | .setV => m.y = own.y
  | .setU => m.x = own.x
  | .testK | .incK | .testPixel | .setColor _ => m.k = own.k
  | .copyBlack | .copyColor => m.offset = own.offset
  | .nextRow | .setY | .testI | .setX | .setK | .setU2 | .setV2 | .setOffset | .incI | .done => True

def Undisturbed (s : Sys T D) (t : T) : Prop := (s.threads t).pc.Agrees s.vars (s.own t)

instance [DecidableEq D] (s : Sys T D) (t : T) : Decidable (Undisturbed s t) := by
  unfold Undisturbed Pc.Agrees
  split <;> infer_instance

/-- A statement that finds its own values does what it does without other threads. -/
theorem exec_own {A : Arithmetic D} {p : Picture} {m own : Vars D} {l : Local D}
    (h : l.pc.Agrees m own) : exec A p m l = exec A p own l := by
  cases hpc : l.pc <;> simp only [hpc, Pc.Agrees] at h <;> simp only [exec, hpc, h]

theorem Pc.agrees_self (m : Vars D) (pc : Pc) : pc.Agrees m m := by
  cases pc <;> trivial

/-- A thread without others finds what it has stored. -/
theorem undisturbed_alone [DecidableEq T] [Subsingleton T] {A : Arithmetic D} {p : Picture}
    {schedule : Schedule T p.yres} {x y : D} {block : List.Vector UInt8 p.byteRes.toNat}
    {s : Sys T D} (h : (mandelbrot A p schedule x y k block).Reachable s) (t : T) :
    Undisturbed s t := by
  have hown : ∀ t, s.own t = s.vars := by
    apply h.invariant (I := fun s => ∀ t, s.own t = s.vars)
    · exact fun _ => rfl
    · intro s t s' _ hs _ hn t'
      simp only [mandelbrot, Sys.next, Option.bind_eq_bind, Option.bind_eq_some_iff,
        Option.pure_def, Option.some.injEq] at hn
      obtain ⟨e, _, buf, _, rfl⟩ := hn
      obtain rfl : t' = t := Subsingleton.elim t' t
      simp only [Function.update_self, hs]
  rw [Undisturbed, hown t]
  exact Pc.agrees_self _ _

end Cs324.Mandelbrot
