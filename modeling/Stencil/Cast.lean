import Stencil.Json.Printer
import Stencil.Json.Reader
import Stencil.Text.Blank

/-!
# Casting a value to a declared type

A token may declare the type that its value is cast to.  A cast to `string` gives
the text that the value leaves inside a longer text.  A cast to `number` reads a
string as a number and leaves numbers alone.  A cast to `object` reads a string as
a JSON document and leaves every other value alone.  A token that declares no
type passes its value on as it is.

The text of a number may have blank characters around it, and a number that
equals an integer of 64 bits with a sign becomes that integer.
-/

namespace Stencil

set_option autoImplicit false

/-- The type that a value is cast to. -/
inductive Cast where
  /-- No declared type. -/
  | asIs
  | string
  | number
  | object
deriving DecidableEq

/-- Why a value could not be cast. -/
inductive CastFault where
  /-- The text is no number. -/
  | notANumber (text : Text)
  /-- The text is that of an infinity, or of something that is not a number. -/
  | notFinite (text : Text)
  /-- The text is no JSON document; why it is none is left out. -/
  | notJson (text : Text)
deriving DecidableEq

namespace Cast

/-- The types that can be declared, with their tags. -/
def tags : List (Text × Cast) :=
  [("string".toList, string), ("number".toList, number), ("object".toList, object)]

/-- The type with the given tag. -/
def ofTag? (tag : Text) : Option Cast :=
  tags.lookup tag

/-- The number that a text denotes. -/
def readNumber (s : Text) : Except CastFault Json :=
  match Reading.ofText? (Text.trim s) with
  | none => .error (.notANumber s)
  | some .nan => .error (.notFinite Reading.nanText)
  | some (.infinite neg) => .error (.notFinite (Reading.infinityText neg))
  | some (.finite x) => .ok (.num (Number.ofDouble x))

/-- The tree that a text denotes. -/
def readObject (s : Text) : Except CastFault Json :=
  match Json.parse? s with
  | none => .error (.notJson s)
  | some v => .ok v

/-- The value cast to the type. -/
def apply (c : Cast) (v : Json) : Except CastFault Json :=
  match c, v with
  | asIs, v => .ok v
  | string, v => .ok (.str (String.ofList v.inline))
  | number, .num n => .ok (.num n)
  | number, .str s => readNumber s.toList
  | number, v => .error (.notANumber v.render)
  | object, .str s => readObject s.toList
  | object, v => .ok v

@[simp] theorem apply_asIs (v : Json) : apply asIs v = .ok v := by
  cases v <;> rfl

@[simp] theorem apply_string (v : Json) : apply string v = .ok (.str (String.ofList v.inline)) := by
  cases v <;> rfl

end Cast

end Stencil
