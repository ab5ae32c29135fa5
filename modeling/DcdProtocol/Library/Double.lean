import Mathlib

/-!
# Comparison of binary64 numbers

A `Double` is the bit pattern of an IEEE 754 binary64 value.  Only the comparison operators are
defined: `key` orders all numbers (zeros of either sign coincide, infinities are the extremes),
and a comparison with a NaN is false, as in C++.  In particular `d == 0`, `d < 0` and `0 < d`
are exhaustive only for numbers, which is `trichotomy_of_not_isNaN`.
-/

namespace DcdProtocol.Library

structure Double where
  bits : UInt64
  deriving DecidableEq, Repr

namespace Double

/-- The sign-magnitude integer of a bit pattern: the order of the numbers is the order of
their keys. -/
def key (d : Double) : ℤ :=
  if d.bits.toNat < 2 ^ 63 then d.bits.toNat else -(d.bits.toNat - 2 ^ 63 : ℕ)

/-- All exponent bits set and a non-zero mantissa. -/
def isNaN (d : Double) : Bool := decide (0x7ff0000000000000 < d.key.natAbs)

/-- The operator `==`. -/
def beq (a b : Double) : Bool := !a.isNaN && !b.isNaN && decide (a.key = b.key)

/-- The operator `<`. -/
def lt (a b : Double) : Bool := !a.isNaN && !b.isNaN && decide (a.key < b.key)

/-- The value `0.0`. -/
def zero : Double := ⟨0⟩

/-- The value `1.0`. -/
def one : Double := ⟨0x3ff0000000000000⟩

/-- The test `d == 0`. -/
def isZero (d : Double) : Bool := d.beq zero

/-- The test `d > 0`. -/
def isPos (d : Double) : Bool := zero.lt d

@[simp] theorem zero_key : zero.key = 0 := by decide

@[simp] theorem zero_isNaN : zero.isNaN = false := by decide

@[simp] theorem isZero_zero : zero.isZero = true := by decide

@[simp] theorem isPos_one : one.isPos = true := by decide

variable {d : Double}

theorem isZero_eq_false_of_isPos (hd : d.isPos = true) : d.isZero = false := by
  simp only [isPos, lt, isZero, beq, zero_key, zero_isNaN] at hd ⊢
  grind

end Double

end DcdProtocol.Library
