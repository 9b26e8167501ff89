import Stencil.Decimal.Basic
import Stencil.Double.Basic

/-!
# The double nearest to a number

A number that is not itself a double is read as the nearest one; of two that are
equally near, the one with the even significand is taken.  Both the number and
the doubles are counted in units of the least positive double, so the rule
becomes: divide, round the quotient to an integer, ties to even.

The place of the result in the sequence of magnitudes is the rounded significand
plus `2 ^ 52` for every doubling of the unit.  When rounding carries the
significand to `2 ^ 53` this sum is already the place of the next power of two,
so no case is needed for it.  A result past the last double is an overflow.
-/

namespace Stencil.Double

set_option autoImplicit false

/-- The quotient rounded to the nearest integer, ties to the even one. -/
def roundQuotient (num den : Nat) : Nat :=
  let q := num / den
  let r := num % den
  if 2 * r < den then q
  else if den < 2 * r then q + 1
  else q + q % 2

/-- The place of the magnitude nearest to `num / den`. -/
def nearestRank (num den : Nat) : Nat :=
  let scaled := num * unitsPerOne
  let shift := (scaled / den).log2 - 52
  roundQuotient scaled (den * Nat.pow 2 shift) + shift * 0x10000000000000

/-- The number of the given sign and place, unless the place is past the last number. -/
def ofRank? (neg : Bool) (rank : Nat) : Option Double :=
  if h : rank < 0x7ff0000000000000 then some ⟨neg, rank, h⟩ else none

/-- The double nearest to the decimal with the given sign, or none if the decimal is too large.

The first two cases give the answer that the last one would give, without writing out a power
of ten that the answer does not depend on: from `10 ^ 400` on every magnitude overflows, and below
`10 ^ (-330)` every magnitude rounds to zero. -/
def ofDecimal? (neg : Bool) (d : Decimal) : Option Double :=
  if d.digits = 0 then some (zero neg)
  else if 400 < d.exponent then none
  else if d.exponent + (d.digits.log2 + 1) < -330 then some (zero neg)
  else ofRank? neg (nearestRank d.num d.den)

/-- Within half of the divisor the quotient is rounded, whichever way it goes. -/
theorem roundQuotient_near (num den : Nat) (h : 0 < den) :
    2 * (roundQuotient num den * den) ≤ 2 * num + den ∧
      2 * num ≤ 2 * (roundQuotient num den * den) + den := by
  have hdiv : den * (num / den) + num % den = num := Nat.div_add_mod num den
  have hlt : num % den < den := Nat.mod_lt _ h
  have hstep : (num / den + 1) * den = den * (num / den) + den := by
    rw [Nat.add_mul, Nat.one_mul, Nat.mul_comm]
  have hcomm : num / den * den = den * (num / den) := Nat.mul_comm _ _
  unfold roundQuotient
  dsimp only
  split
  · omega
  · split
    · omega
    · rcases Nat.mod_two_eq_zero_or_one (num / den) with hpar | hpar <;>
        simp only [hpar, Nat.add_zero] <;> omega

/-- A quotient without a remainder is not changed by rounding. -/
theorem roundQuotient_mul (n den : Nat) (h : 0 < den) : roundQuotient (n * den) den = n := by
  simp [roundQuotient, Nat.mul_div_cancel n h, h]

end Stencil.Double
