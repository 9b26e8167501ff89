/-!
# Text as a list of characters

Templates, paths and JSON documents are all read from the front, one character
at a time, and every law about them is an induction on the characters that are
left.  So the readers and writers of this library work on `Text`, the list of
the characters of a string.  Strings appear where a value is stored: in the
leaves and keys of a JSON tree.

Offsets into a text are counted in bytes of its UTF-8 encoding, which is what
`Text.byteLength` measures.
-/

namespace Stencil

set_option autoImplicit false

/-- A text, as the list of its characters. -/
abbrev Text := List Char

namespace Text

/-- How many bytes the text takes when it is encoded as UTF-8. -/
def byteLength (s : Text) : Nat :=
  s.foldr (fun c n => c.utf8Size + n) 0

@[simp] theorem byteLength_nil : byteLength [] = 0 := rfl

@[simp] theorem byteLength_cons (c : Char) (s : Text) :
    byteLength (c :: s) = c.utf8Size + byteLength s := rfl

@[simp] theorem byteLength_append (s t : Text) :
    byteLength (s ++ t) = byteLength s + byteLength t := by
  induction s with
  | nil => simp
  | cons c s ih => rw [List.cons_append, byteLength_cons, byteLength_cons, ih, Nat.add_assoc]

/-- The part of `whole` that lies before its suffix `rest`. -/
def before (whole rest : Text) : Text :=
  whole.take (whole.length - rest.length)

@[simp] theorem before_append (s t : Text) : before (s ++ t) t = s := by
  simp [before]

end Text

end Stencil
