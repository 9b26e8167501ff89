/-!
# Finite double-precision numbers

The finite numbers of the binary64 format of IEEE 754, as data.  The magnitudes
of that format form one increasing sequence that starts with zero, and a number
is stored as its sign and its place in the sequence, its `rank`.  The rank is
the bit pattern without the sign, so every rank below the one of infinity is a
number and every number has one rank for each sign.

All magnitudes are multiples of the least positive one.  `units` says which
multiple, so the exact value of a number is `units / unitsPerOne`, and all
arithmetic here is arithmetic on natural numbers.
-/

namespace Stencil

set_option autoImplicit false

/-- A finite double-precision number. -/
structure Double where
  /-- Whether the sign is a minus. -/
  neg : Bool
  /-- The place of the magnitude in the sequence of all magnitudes. -/
  rank : Nat
  /-- Infinity has the first rank that is no number. -/
  rank_lt : rank < 0x7ff0000000000000
deriving DecidableEq

namespace Double

/-- Zero with the given sign. -/
def zero (neg : Bool) : Double :=
  ⟨neg, 0, by decide⟩

/-- The number of times that the unit is doubled between the least magnitudes and this one.  Each
doubling takes `2 ^ 52` ranks. -/
def shift (x : Double) : Nat :=
  x.rank / 0x10000000000000 - 1

/-- The integer that the unit at this magnitude is multiplied by. -/
def significand (x : Double) : Nat :=
  x.rank - x.shift * 0x10000000000000

/-- The magnitude as a multiple of the least positive magnitude. -/
def units (x : Double) : Nat :=
  x.significand * Nat.pow 2 x.shift

/-- How many times the least positive magnitude goes into one. -/
def unitsPerOne : Nat := Nat.pow 2 1074

/-- Equality of values: the two zeros are equal. -/
def same (x y : Double) : Bool :=
  x == y || (x.rank == 0 && y.rank == 0)

/-- The integer that the number is equal to, if there is one. -/
def toInt? (x : Double) : Option Int :=
  if x.units % unitsPerOne = 0 then
    let n : Int := (x.units / unitsPerOne : Nat)
    some (if x.neg then -n else n)
  else
    none

@[simp] theorem same_self (x : Double) : same x x = true := by
  simp [same]

theorem same_comm (x y : Double) : same x y = same y x := by
  have h : (x == y) = (y == x) := BEq.comm
  simp [same, h, Bool.and_comm]

end Double

end Stencil
