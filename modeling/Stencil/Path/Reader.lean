import Stencil.Path.Basic
import Stencil.Text.Blank
import Stencil.Text.Search

/-!
# Reading a path

In a text the steps of a path follow each other without a break.  A key is
written after a point and goes up to the next point or bracket, whatever else it
contains.  A step in brackets is an index or a key in single or double quotes,
and blank characters next to the brackets do not count.  A quoted key ends at the
first quote of its kind that the closing bracket follows directly, so it may
contain brackets and the other quote.  The point before the first key of a path is
left out.

A path has at least one step.  A key that is not in quotes has at least one
character, so a point must not end the text, and no point or bracket may follow
it directly.
-/

namespace Stencil

set_option autoImplicit false

/-- Why a path cannot be used. -/
inductive PathFault where
  /-- The text has no steps. -/
  | emptyPath
  /-- A key without quotes has no characters. -/
  | emptySegment
  /-- A bracket is not closed. -/
  | unterminatedBracket
  /-- A bracket holds neither an index nor a quoted key. -/
  | badBracket
  /-- After a bracket stands neither a point nor another bracket. -/
  | missingSeparator
  /-- An index is larger than those that can be assigned. -/
  | indexTooLarge
deriving DecidableEq

namespace Path

/-- Whether the character can be part of a key that is not in quotes. -/
def isBare (c : Char) : Bool :=
  c != '.' && c != '['

/-- Whether the character opens a quoted key. -/
def isQuote (c : Char) : Bool :=
  c == '"' || c == '\''

/-- Reads an index and the closing bracket. -/
def readIndex (s : Text) : Except PathFault (Segment × Text) :=
  match Text.splitFirst? [']'] s with
  | none => .error .unterminatedBracket
  | some (inner, rest) =>
    match indexOfText? (Text.trim inner) with
    | some i => .ok (.index i, rest)
    | none => .error .badBracket

/-- Reads a key up to the quote that the closing bracket follows; the opening quote has been
read. -/
def readQuoted (quote : Char) (s : Text) : Except PathFault (Segment × Text) :=
  match Text.splitFirst? [quote, ']'] s with
  | none => .error .unterminatedBracket
  | some (key, rest) => .ok (.key (String.ofList key), rest)

/-- Reads a step whose opening bracket has been read. -/
def readBracket (s : Text) : Except PathFault (Segment × Text) :=
  match Text.trimStart s with
  | [] => .error .unterminatedBracket
  | c :: rest => if isQuote c then readQuoted c rest else readIndex (c :: rest)

theorem length_lt_of_readIndex {s rest : Text} {segment : Segment}
    (h : readIndex s = .ok (segment, rest)) : rest.length < s.length := by
  unfold readIndex at h
  split at h
  · cases h
  · next inner rest' hsplit =>
    split at h
    · cases h
      exact Text.length_lt_of_splitFirst? (by simp) hsplit
    · cases h

theorem length_lt_of_readQuoted {quote : Char} {s rest : Text} {segment : Segment}
    (h : readQuoted quote s = .ok (segment, rest)) : rest.length < s.length := by
  unfold readQuoted at h
  split at h
  · cases h
  · next key rest' hsplit =>
    cases h
    exact Text.length_lt_of_splitFirst? (by simp) hsplit

/-- What follows a bracket is shorter than what followed its opening. -/
theorem length_lt_of_readBracket {s rest : Text} {segment : Segment}
    (h : readBracket s = .ok (segment, rest)) : rest.length < s.length := by
  have htrim := Text.length_trimStart_le s
  unfold readBracket at h
  split at h
  · cases h
  · next c tail hs =>
    rw [hs, List.length_cons] at htrim
    split at h
    · have := length_lt_of_readQuoted h
      omega
    · have := length_lt_of_readIndex h
      simp only [List.length_cons] at this
      omega

/-- Reads the steps of a path, each of them with the point or bracket that it starts with. -/
def readSteps (s : Text) : Except PathFault Path :=
  match s with
  | [] => .ok []
  | '.' :: s =>
    match s.takeWhile isBare with
    | [] => .error .emptySegment
    | key => do
      let path ← readSteps (s.dropWhile isBare)
      return .key (String.ofList key) :: path
  | '[' :: s =>
    match _h : readBracket s with
    | .error fault => .error fault
    | .ok (segment, rest) => do
      let path ← readSteps rest
      return segment :: path
  | _ :: _ => .error .missingSeparator
termination_by s.length
decreasing_by
  · have := (List.dropWhile_suffix isBare (l := s)).length_le
    simp only [List.length_cons]
    omega
  · have := length_lt_of_readBracket ‹readBracket s = .ok (segment, rest)›
    simp only [List.length_cons]
    omega

/-- The path that a text denotes. -/
def ofText (s : Text) : Except PathFault Path :=
  match s with
  | [] => .error .emptyPath
  | '[' :: _ => readSteps s
  | _ => readSteps ('.' :: s)

end Path

end Stencil
