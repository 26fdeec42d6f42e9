import Cs324.Base.CLib

namespace Cs324.Mandelbrot
set_option autoImplicit true

/-- The arithmetic on the type `D` that the coordinates and the iterated point have. -/
structure Arithmetic (D : Type*) where
  yAt : Nat → D
  xAt : Nat → D
  zero : D
  square : D → D
  /-- `2 * u * v + y` -/
  nextV : D → D → D → D
  /-- `u2 - v2 + x` -/
  nextU : D → D → D → D
  /-- `u2 + v2 < 4.0` -/
  inside : D → D → Bool

structure Picture where
  maxiter : UInt16
  xres : Int
  yres : Int

def pixelSize : Nat := 6

/-- The loop over `k`, which goes on for at most `left` more turns. -/
def iterate (A : Arithmetic D) (x y : D) : Nat → Nat → D → D → D → D → Nat
  | 0, k, _, _, _, _ => k
  | left + 1, k, u, v, u2, v2 =>
    if A.inside u2 v2 then
      let v := A.nextV u v y
      let u := A.nextU u2 v2 x
      iterate A x y left (k + 1) u v (A.square u) (A.square v)
    else k

/-- What `k` is after the loop for a pixel. -/
def Picture.count (p : Picture) (A : Arithmetic D) (j i : Nat) : Nat :=
  iterate A (A.xAt i) (A.yAt j) (p.maxiter.toNat - 1) 1 A.zero A.zero (A.square A.zero)
    (A.square A.zero)

/-- `color[n]`, converted to `unsigned char`. -/
def colorByte (k n : Nat) : UInt8 := UInt8.ofNat (if n % 2 = 0 then k >>> 8 else k &&& 255)

def black : List UInt8 := [0, 0, 0, 0, 0, 0]

def Picture.pixel (p : Picture) (A : Arithmetic D) (j i : Nat) : List UInt8 :=
  let k := p.count A j i
  if p.maxiter.toNat ≤ k then black
  else [colorByte k 0, colorByte k 1, colorByte k 2, colorByte k 3, colorByte k 4, colorByte k 5]

/-- The bytes that the sequential program writes behind the header. -/
def orig (p : Picture) (A : Arithmetic D) : List UInt8 :=
  (List.range p.yres.toNat).flatMap fun j =>
    (List.range p.xres.toNat).flatMap fun i => p.pixel A j i

theorem Picture.pixel_length (p : Picture) (A : Arithmetic D) (j i : Nat) :
    (p.pixel A j i).length = pixelSize := by
  rw [Picture.pixel]
  split <;> rfl

/-- A turn of the loop over `k`, if its condition holds. -/
theorem iterate_turn {A : Arithmetic D} {maxiter k : Nat} (hk : k < maxiter)
    (hin : A.inside u2 v2) (x y u v : D) :
    iterate A x y (maxiter - k) k u v u2 v2 =
      iterate A x y (maxiter - (k + 1)) (k + 1) (A.nextU u2 v2 x) (A.nextV u v y)
        (A.square (A.nextU u2 v2 x)) (A.square (A.nextV u v y)) := by
  obtain ⟨left, hleft⟩ : ∃ left, maxiter - k = left + 1 := ⟨maxiter - (k + 1), by omega⟩
  have hleft' : maxiter - (k + 1) = left := by
    omega
  rw [hleft, hleft', iterate, if_pos hin]

theorem iterate_end {A : Arithmetic D} {maxiter k : Nat} (h : ¬(k < maxiter ∧ A.inside u2 v2))
    (x y u v : D) : iterate A x y (maxiter - k) k u v u2 v2 = k := by
  cases hleft : maxiter - k with
  | zero => rfl
  | succ left =>
    rw [iterate, if_neg]
    intro hin
    exact h ⟨by omega, hin⟩

end Cs324.Mandelbrot
