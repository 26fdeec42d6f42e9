import Cs324.Base.CString

namespace Cs324
set_option autoImplicit true

/-- The value of a 32-bit `int` after an arithmetic operation, wrapping in two's complement. -/
def int32 (x : Int) : Int := (x + 2147483648) % 4294967296 - 2147483648

theorem int32_eq (hl : 0 ≤ x) (hu : x < 2147483648) : int32 x = x := by
  simp only [int32]
  omega

theorem int32_le (x : Int) : int32 x ≤ 2147483647 := by
  unfold int32
  omega

/-- The same for 64 bits, as in `ssize_t`. -/
def int64 (x : Int) : Int :=
  (x + 9223372036854775808) % 18446744073709551616 - 9223372036854775808

/-- The `size_t` that an `int` argument becomes. -/
def sizeT (x : Int) : Nat := (x % 18446744073709551616).toNat

theorem sizeT_eq (hl : 0 ≤ x) (hu : x < 18446744073709551616) : sizeT x = x.toNat := by
  simp only [sizeT]
  omega

/-- How `%d` prints an `int`. -/
def decimal (n : Int) : List UInt8 := chars (toString n)

/-- `isdigit` in the C locale. -/
def isdigit (c : UInt8) : Bool := 48 ≤ c && c ≤ 57

/-- `isspace` in the C locale. -/
def isspace (c : UInt8) : Bool := c == 32 || (9 ≤ c && c ≤ 13)

/-- The number that a run of decimal digits at the front of a string spells. -/
def digits (s : List UInt8) : Int :=
  (s.takeWhile isdigit).foldl (fun n c => 10 * n + (c.toNat - 48 : Int)) 0

/-- `atoi`: `strtol` in base 10, which saturates at the bounds of `long`, cast to `int`. -/
def atoi (s : List UInt8) : Int :=
  let n := match s.dropWhile isspace with
    | 45 :: s => -digits s
    | 43 :: s => digits s
    | s => digits s
  int32 (max (-9223372036854775808) (min 9223372036854775807 n))

example : atoi (chars "-12ab") = -12 := by decide
example : atoi (chars "4294967297") = 1 := by decide

end Cs324
