/-!
# Decimals

A `Decimal` is a natural number scaled by a power of ten.  It is what a numeral
denotes before anything is rounded, and what the digits of a printed number
stand for.  Its exact value is the quotient `num / den` of two natural numbers,
so that values are compared without leaving the naturals.
-/

namespace Stencil

set_option autoImplicit false

/-- The number `digits * 10 ^ exponent`. -/
structure Decimal where
  /-- The digits, read as one natural number. -/
  digits : Nat
  /-- The power of ten that scales the digits. -/
  exponent : Int
deriving DecidableEq

namespace Decimal

/-- The numerator of the exact value. -/
def num (d : Decimal) : Nat :=
  d.digits * Nat.pow 10 d.exponent.toNat

/-- The denominator of the exact value. -/
def den (d : Decimal) : Nat :=
  Nat.pow 10 (-d.exponent).toNat

theorem den_pos (d : Decimal) : 0 < d.den :=
  Nat.pow_pos (by decide)

/-- The same number with up to `n` trailing zeros of its digits moved into the exponent. -/
def stripZeros (d : Decimal) : Nat → Decimal
  | 0 => d
  | n + 1 => if d.digits % 10 = 0 then stripZeros ⟨d.digits / 10, d.exponent + 1⟩ n else d

end Decimal

end Stencil
