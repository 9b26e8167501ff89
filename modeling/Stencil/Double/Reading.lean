import Stencil.Decimal.Numeral
import Stencil.Double.Nearest

/-!
# Reading a floating-point number from text

The reader accepts decimal numerals with at least one digit, and in any case and
with any sign the words `inf`, `infinity` and `nan`.  A numeral too large for a
double reads as infinite.  So a reading is a finite double, an infinity, or not a
number, and the last two have texts of their own.
-/

namespace Stencil

set_option autoImplicit false

/-- What a text that stands for a floating-point number denotes. -/
inductive Reading where
  /-- A finite number. -/
  | finite (x : Double)
  /-- An infinity with its sign. -/
  | infinite (neg : Bool)
  /-- No number at all. -/
  | nan

namespace Reading

/-- The reading of the words for the numbers that are not finite, in lower case. -/
def special? (neg : Bool) (word : Text) : Option Reading :=
  if word = "inf".toList ∨ word = "infinity".toList then some (.infinite neg)
  else if word = "nan".toList then some .nan
  else none

/-- The reading of a text, or none if the text stands for no floating-point number. -/
def ofText? (s : Text) : Option Reading :=
  let (sign, word) := Sign.takeFrom s
  match special? (sign == some .minus) (word.map Char.toLower) with
  | some r => some r
  | none => do
    let n ← Numeral.ofText? s
    if n.IsNumber then
      match Double.ofDecimal? n.isNegative n.magnitude with
      | some x => some (.finite x)
      | none => some (.infinite n.isNegative)
    else none

/-- The text of an infinity, with its sign. -/
def infinityText (neg : Bool) : Text :=
  if neg then "-inf".toList else "inf".toList

/-- The text of a reading that is not a number. -/
def nanText : Text := "NaN".toList

end Reading

end Stencil
