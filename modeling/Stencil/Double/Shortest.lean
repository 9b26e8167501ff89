import Stencil.Double.Nearest

/-!
# The shortest decimal of a double

A double is written with the fewest digits that read back as the same double.
The search goes over the number of digits.  For each it looks at the grid of
decimals with that many digits and at the two neighbours of the number on the
grid; a neighbour qualifies if the double nearest to it is the number itself.
On the first grid with a qualifying neighbour the search ends.  If both
neighbours qualify the nearer is taken, and the even one if they are equally
near.

Seventeen digits are enough for every double.  The search ends there, and what
it would answer beyond is the exact value, which also reads back.
-/

namespace Stencil.Double

set_option autoImplicit false

/-- The number of decimal digits of the natural number. -/
def digitCount (n : Nat) : Nat :=
  (Nat.toDigits 10 n).length

/-- The least power of ten above the magnitude, for a number that is not zero. -/
def decade (x : Double) : Int :=
  if unitsPerOne ≤ x.units then digitCount (x.units / unitsPerOne)
  else 1 - digitCount ((unitsPerOne - 1) / x.units)

/-- Whether the double nearest to the decimal has this magnitude. -/
def readsBack (x : Double) (d : Decimal) : Bool :=
  nearestRank d.num d.den == x.rank

/-- The multiple of `10 ^ e` next to the magnitude that reads back, if there is one. -/
def neighbour? (x : Double) (e : Int) : Option Decimal :=
  let below := x.units * Nat.pow 10 (-e).toNat / (unitsPerOne * Nat.pow 10 e.toNat)
  match x.readsBack ⟨below, e⟩, x.readsBack ⟨below + 1, e⟩ with
  | false, false => none
  | true, false => some ⟨below, e⟩
  | false, true => some ⟨below + 1, e⟩
  | true, true =>
    -- the middle between the two neighbours decides, and on it the even one
    match compare (2 * (x.units * Nat.pow 10 (-e).toNat))
        ((2 * below + 1) * (unitsPerOne * Nat.pow 10 e.toNat)) with
    | .lt => some ⟨below, e⟩
    | .gt => some ⟨below + 1, e⟩
    | .eq => some ⟨below + below % 2, e⟩

/-- The exact value of the magnitude. -/
def exact (x : Double) : Decimal :=
  ⟨x.units * Nat.pow 5 1074, -1074⟩

/-- The shortest decimal that reads back as the magnitude, without trailing zeros. -/
def shortest (x : Double) : Decimal :=
  let found := (List.range 17).findSome? fun i => x.neighbour? (x.decade - (i + 1 : Nat))
  let d := found.getD x.exact
  d.stripZeros (digitCount d.digits)

end Stencil.Double
