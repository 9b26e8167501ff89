import Stencil.Decimal.Basic
import Stencil.Text.Basic

/-!
# Decimal numerals

A numeral is taken apart into its sign, the digits before the point, the digits
after it, and an exponent.  Every part but the exponent's digits may be missing
at this stage.  Which of them a format demands is a condition on the parts:
`IsNumber` is the lenient one, which asks for at least one digit, and
`Stencil.Json.Number` states the stricter one of JSON.

A numeral denotes its digits, with and without the fraction, scaled by a power of
ten, and nothing is rounded here.
-/

namespace Stencil

set_option autoImplicit false

/-- The sign in front of a numeral or of its exponent. -/
inductive Sign where
  | plus
  | minus
deriving DecidableEq

/-- The sign at the front of the text, if there is one, and what follows it. -/
def Sign.takeFrom : Text → Option Sign × Text
  | '+' :: s => (some .plus, s)
  | '-' :: s => (some .minus, s)
  | s => (none, s)

/-- The parts of a decimal numeral. -/
structure Numeral where
  /-- The sign. -/
  sign : Option Sign
  /-- The digits before the point. -/
  whole : Text
  /-- The digits after the point, if there is a point. -/
  fraction : Option Text
  /-- The sign and the digits of the exponent, if there is one. -/
  power : Option (Option Sign × Text)

namespace Numeral

/-- The digits at the front of the text, and what follows them. -/
def takeDigits (s : Text) : Text × Text :=
  (s.takeWhile Char.isDigit, s.dropWhile Char.isDigit)

/-- The point and the digits after it, if the text starts with a point, and what follows them. -/
def takeFraction : Text → Option Text × Text
  | '.' :: s => (some (takeDigits s).1, (takeDigits s).2)
  | s => (none, s)

/-- The exponent that makes up the whole text: its mark, a sign or none, and digits. -/
def power? : Text → Option (Option Sign × Text)
  | [] => none
  | c :: s =>
    let (sign, digits) := Sign.takeFrom s
    if (c = 'e' ∨ c = 'E') ∧ digits ≠ [] ∧ digits.all Char.isDigit = true then some (sign, digits)
    else none

/-- Takes the text apart, or answers none if something is left over. -/
def ofText? (s : Text) : Option Numeral :=
  let (sign, s) := Sign.takeFrom s
  let (whole, s) := takeDigits s
  let (fraction, s) := takeFraction s
  match s with
  | [] => some ⟨sign, whole, fraction, none⟩
  | s => (power? s).map fun power => ⟨sign, whole, fraction, some power⟩

/-- Whether the sign is a minus. -/
def isNegative (n : Numeral) : Bool :=
  n.sign == some .minus

/-- A numeral has a digit before the point or after it. -/
def IsNumber (n : Numeral) : Prop :=
  n.whole ≠ [] ∨ n.fraction.getD [] ≠ []

instance (n : Numeral) : Decidable n.IsNumber :=
  inferInstanceAs (Decidable (_ ∨ _))

/-- The power of ten that the exponent stands for. -/
def scale (n : Numeral) : Int :=
  match n.power with
  | none => 0
  | some (some .minus, digits) => -(Nat.ofDigitChars 10 digits 0 : Nat)
  | some (_, digits) => (Nat.ofDigitChars 10 digits 0 : Nat)

/-- The magnitude that the numeral denotes. -/
def magnitude (n : Numeral) : Decimal where
  digits := Nat.ofDigitChars 10 (n.whole ++ n.fraction.getD []) 0
  exponent := n.scale - ((n.fraction.getD []).length : Nat)

/-- The integer that the digits before the point denote. -/
def integer (n : Numeral) : Int :=
  let magnitude : Int := (Nat.ofDigitChars 10 n.whole 0 : Nat)
  if n.isNegative then -magnitude else magnitude

end Numeral

end Stencil
