import Stencil.Text.Basic

/-!
# Delimiters

Two marks bound a token.  Neither is empty and they differ, which is all that the
library asks of them: they may contain any characters, and one may occur in the
other.

In a configuration the marks are written with backslashes as escapes.  A
backslash makes the next character stand for itself, whichever it is, and one at
the end of the text stands for itself.  So several texts denote the same mark,
and `Delimiters.escape` writes one of them, with every backslash doubled.
-/

namespace Stencil

set_option autoImplicit false

/-- The marks that bound a token. -/
structure Delimiters where
  /-- The mark in front of a token. -/
  opening : Text
  /-- The mark behind a token. -/
  closing : Text
  opening_ne_nil : opening ≠ []
  closing_ne_nil : closing ≠ []
  opening_ne_closing : opening ≠ closing
deriving DecidableEq

/-- Why two marks are no delimiters. -/
inductive DelimiterFault where
  /-- One of the marks is empty. -/
  | empty
  /-- Both marks are this one. -/
  | equal (mark : Text)
deriving DecidableEq

namespace Delimiters

/-- The delimiters with these marks. -/
def ofMarks (opening closing : Text) : Except DelimiterFault Delimiters :=
  if ho : opening = [] then .error .empty
  else if hc : closing = [] then .error .empty
  else if h : opening = closing then .error (.equal opening)
  else .ok ⟨opening, closing, ho, hc, h⟩

/-- The delimiters that are used unless others are given. -/
def default : Delimiters :=
  ⟨"\x7b\x7b".toList, "\x7d\x7d".toList, by decide, by decide, by decide⟩

instance : Inhabited Delimiters := ⟨default⟩

/-- The escaped form of a mark. -/
def escape (mark : Text) : Text :=
  mark.flatMap fun c => if c = '\\' then ['\\', '\\'] else [c]

/-- The mark that an escaped form denotes. -/
def unescape : Text → Text
  | [] => []
  | '\\' :: c :: s => c :: unescape s
  | c :: s => c :: unescape s

/-- The delimiters whose marks have these escaped forms. -/
def ofEscaped (opening closing : Text) : Except DelimiterFault Delimiters :=
  ofMarks (unescape opening) (unescape closing)

@[simp] theorem unescape_escape (mark : Text) : unescape (escape mark) = mark := by
  induction mark with
  | nil => rfl
  | cons c s ih =>
    have hcons : escape (c :: s) = (if c = '\\' then ['\\', '\\'] else [c]) ++ escape s := rfl
    rw [hcons]
    split
    · next h => simp [unescape, h, ih]
    · next h =>
      rw [List.singleton_append, unescape.eq_3 _ _ (fun d t hd _ => h hd), ih]

/-- Delimiters are made from their own marks. -/
@[simp] theorem ofMarks_self (d : Delimiters) : ofMarks d.opening d.closing = .ok d := by
  simp [ofMarks, d.opening_ne_nil, d.closing_ne_nil, d.opening_ne_closing]

/-- Delimiters are read back from the escaped forms of their marks. -/
theorem ofEscaped_escape (d : Delimiters) :
    ofEscaped (escape d.opening) (escape d.closing) = .ok d := by
  simp [ofEscaped]

end Delimiters

end Stencil
