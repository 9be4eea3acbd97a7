import Mathlib.Tactic.Common

/-! The C integer types on the machine the program is built for. A value is an
integer; the conversions cut it to the range of its type. -/
namespace Btlos

/-- Conversion to `int`, 32 bits in two's complement. -/
def cint (x : Int) : Int := (x + 2147483648) % 4294967296 - 2147483648

/-- Conversion to `unsigned long`, 64 bits. Negative values wrap to the top. -/
def ulong (x : Int) : Int := x % 18446744073709551616

theorem cint_of_range {x : Int} (hLow : -2147483648 ≤ x) (hHigh : x < 2147483648) : cint x = x := by
  unfold cint
  omega

theorem ulong_of_range {x : Int} (hLow : 0 ≤ x) (hHigh : x < 18446744073709551616) :
    ulong x = x := by
  unfold ulong
  omega

theorem cint_bounds (x : Int) : -2147483648 ≤ cint x ∧ cint x < 2147483648 := by
  unfold cint
  omega

theorem ulong_bounds (x : Int) : 0 ≤ ulong x ∧ ulong x < 18446744073709551616 := by
  unfold ulong
  omega

/-- Cutting to `int` does not change the low 32 bits. -/
@[simp] theorem ofInt_cint (x : Int) : BitVec.ofInt 32 (cint x) = BitVec.ofInt 32 x := by
  apply BitVec.eq_of_toNat_eq
  simp only [BitVec.toNat_ofInt, cint]
  congr 1
  omega

end Btlos
