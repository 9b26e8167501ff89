import Stencil.Double.Notation
import Stencil.Double.Reading
import Stencil.Double.Scale

/-!
# The numbers of a JSON tree

A number is an integer of up to 64 bits, signed or unsigned, or a double.  The
two kinds never mix: `5` and `5.0` are different numbers.  A numeral without a
point and without an exponent denotes an integer if the integer fits, and every
other numeral denotes a double; minus zero is a double, since no integer has that
sign.

The double is found in a way that is faster than exact.  The digits are taken as
an integer as long as it fits 64 bits, the others are left out, and the double of
this integer is scaled by a power of ten.  So a numeral can denote a double beside
the nearest one.
-/

namespace Stencil

set_option autoImplicit false

/-- A JSON number. -/
inductive Number where
  /-- An integer that fits 64 bits, signed or unsigned. -/
  | int (n : Int) (lower : -0x8000000000000000 ≤ n) (upper : n < 0x10000000000000000)
  /-- A double. -/
  | float (x : Double)
deriving DecidableEq

/-- JSON asks for an integer part without a plus sign and without leading zeros, and for digits
on both sides of a point. -/
def Numeral.IsJson (n : Numeral) : Prop :=
  n.sign ≠ some .plus ∧ (n.whole = ['0'] ∨ n.whole ≠ [] ∧ n.whole.head? ≠ some '0') ∧
    n.fraction ≠ some []

instance (n : Numeral) : Decidable n.IsJson :=
  inferInstanceAs (Decidable (_ ∧ _))

namespace Number

/-- The integer as a number, if it fits. -/
def ofInt? (n : Int) : Option Number :=
  if h : -0x8000000000000000 ≤ n ∧ n < 0x10000000000000000 then some (.int n h.1 h.2) else none

/-- The integer that the numeral stands for if it is written as one, is not minus zero and fits. -/
def integerOfNumeral? (n : Numeral) : Option Number :=
  if n.fraction.isNone ∧ n.power.isNone ∧ ¬(n.isNegative ∧ n.integer = 0) then ofInt? n.integer
  else none

/-- The integer continued with the digits as long as it fits 64 bits, and how many of the digits are
left out. -/
def fillSignificand (significand : Nat) : Text → Nat × Nat
  | [] => (significand, 0)
  | c :: digits =>
    let next := 10 * significand + (c.toNat - '0'.toNat)
    if next < 0x10000000000000000 then fillSignificand next digits
    else (significand, digits.length + 1)

/-- The double that the numeral denotes.  Digits before the point that are left out count as zeros,
and those after it do not count; so where the former are left out, the latter may still be taken. -/
def doubleOfNumeral? (n : Numeral) : Option Double := do
  let fraction := n.fraction.getD []
  let (whole, wholeLeft) := fillSignificand 0 n.whole
  let (significand, fractionLeft) := fillSignificand whole fraction
  let x ← Double.nearest? n.isNegative significand 1
  x.scale? (n.scale + wholeLeft - (fraction.length - fractionLeft : Nat))

/-- The number that a JSON numeral denotes; a numeral that overflows the doubles denotes none. -/
def ofNumeral? (n : Numeral) : Option Number :=
  match integerOfNumeral? n with
  | some i => some i
  | none => (doubleOfNumeral? n).map .float

/-- The number that the text denotes in JSON. -/
def ofText? (s : Text) : Option Number := do
  let n ← Numeral.ofText? s
  if n.IsJson then ofNumeral? n else none

/-- The text of an integer. -/
def intText (n : Int) : Text :=
  if n < 0 then '-' :: Nat.toDigits 10 n.natAbs else Nat.toDigits 10 n.natAbs

/-- The text of the number. -/
def toText : Number → Text
  | .int n _ _ => intText n
  | .float x => x.toText

/-- Equality of values: an integer never equals a double, and the two zeros of the doubles are
equal. -/
def same : Number → Number → Bool
  | .int m _ _, .int n _ _ => m == n
  | .float x, .float y => x.same y
  | _, _ => false

/-- The integer that equals the double if it fits 64 bits with a sign, and otherwise the double. -/
def ofDouble (x : Double) : Number :=
  match x.toInt? with
  | some n =>
    if h : -0x8000000000000000 ≤ n ∧ n < 0x8000000000000000 then .int n h.1 (by omega)
    else .float x
  | none => .float x

/-- The number of a finite reading, an integer where possible. -/
def ofReading? : Reading → Option Number
  | .finite x => some (ofDouble x)
  | _ => none

@[simp] theorem same_self (n : Number) : same n n = true := by
  cases n <;> simp [same]

end Number

end Stencil
