import Stencil.Double.Nearest

/-!
# Scaling doubles by powers of ten

The product and the quotient of two doubles are exact numbers, and the double that
stands for them is the nearest one.  A double is scaled by a power of ten by
multiplying it with the double of that power, or dividing it by that double.  So a
scaled double was rounded once for the power and once for the product, and it need
not be the double that is nearest to the exact product.

The doubles of the powers end with `10 ^ 308`.  What is to be divided by a greater
power is divided by this one first, as often as it takes.
-/

namespace Stencil.Double

set_option autoImplicit false

/-- The double nearest to the quotient, with the given sign, or none if that is too large. -/
def nearest? (neg : Bool) (num den : Nat) : Option Double :=
  ofRank? neg (nearestRank num den)

/-- The product of two doubles. -/
def times? (x y : Double) : Option Double :=
  nearest? (x.neg != y.neg) (x.units * y.units) (unitsPerOne * unitsPerOne)

/-- The quotient of two doubles. -/
def over? (x y : Double) : Option Double :=
  nearest? (x.neg != y.neg) x.units y.units

/-- The double of the power of ten. -/
def powerOfTen? (n : Nat) : Option Double :=
  if n ≤ 308 then nearest? false (Nat.pow 10 n) 1 else none

/-- The double divided by the greatest power of ten, as many times as asked for. -/
def shrink? (x : Double) : Nat → Option Double
  | 0 => some x
  | n + 1 =>
    if x.rank = 0 then some x
    else do
      let power ← powerOfTen? 308
      let y ← x.over? power
      y.shrink? n

/-- The double scaled by the power of ten, or none if the result is too large. -/
def scale? (x : Double) : Int → Option Double
  | .ofNat n =>
    match powerOfTen? n with
    | some power => x.times? power
    | none => if x.rank = 0 then some x else none
  | .negSucc n => do
    let y ← x.shrink? (n / 308)
    let power ← powerOfTen? (n % 308 + 1)
    y.over? power

end Stencil.Double
