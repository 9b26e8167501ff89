import Stencil.Json.Basic
import Stencil.Json.Quoted
import Stencil.Text.Search

/-!
# Reading JSON

A reader takes a value from the front of a text and answers with the value and
what follows it.  Arrays and objects are read by a reader that may go one level
less deep than the one that calls it, so the depth that is left is what the
recursion is on, and `maxDepth` is a rule of the format here: a document with
more levels is refused.

There are two ways in.  `parse?` reads a document, which is one value and the
space around it.  `readFront?` reads one value at the front of a longer text.
There a word or a number has no closing mark of its own, so what follows it must
show that it has ended.

An object that repeats a key keeps the first position of the key and its last
value.
-/

namespace Stencil.Json

set_option autoImplicit false

/-- Reads a value from the front of a text and answers with what follows it. -/
abbrev Reader (α : Type) := Text → Option (α × Text)

/-- How many arrays and objects may lie inside each other. -/
def maxDepth : Nat := 127

/-- The text without the spaces, tabs and line ends at its start. -/
def skipSpace (s : Text) : Text :=
  s.dropWhile Char.isWhitespace

/-! ## Scalars -/

/-- The words of the format and what they denote. -/
def words : List (Text × Json) :=
  [("null".toList, null), ("true".toList, bool true), ("false".toList, bool false)]

/-- Reads one of the words. -/
def readWord (s : Text) : Option (Json × Text) :=
  words.findSome? fun word => (word.1.isPrefixOf? s).map fun rest => (word.2, rest)

/-- Whether the character can be part of a number. -/
def isNumberChar (c : Char) : Bool :=
  c.isDigit || c == '-' || c == '+' || c == '.' || c == 'e' || c == 'E'

/-- Reads a number, which goes as far as there are characters of numbers. -/
def readNumber (s : Text) : Option (Json × Text) :=
  (Number.ofText? (s.takeWhile isNumberChar)).map fun n => (num n, s.dropWhile isNumberChar)

/-- Reads a string whose opening quote has been read. -/
def readString (s : Text) : Option (String × Text) :=
  (Quoted.read s).map fun parts => (String.ofList parts.1, parts.2)

/-! ## Sequences -/

/-- Reads the elements after the first one and the mark that closes the sequence.  Each round reads
at least the comma, so a text never has more rounds than characters. -/
def readMore {α : Type} (element : Reader α) (close : Char) : Nat → Reader (List α)
  | 0, _ => none
  | rounds + 1, s =>
    match skipSpace s with
    | [] => none
    | c :: s =>
      if c = close then some ([], s)
      else if c = ',' then do
        let (x, s) ← element (skipSpace s)
        let (xs, s) ← readMore element close rounds s
        return (x :: xs, s)
      else none

/-- Reads a sequence whose opening mark has been read. -/
def readSequence {α : Type} (element : Reader α) (close : Char) (s : Text) :
    Option (List α × Text) :=
  match skipSpace s with
  | [] => none
  | c :: rest =>
    if c = close then some ([], rest)
    else do
      let (x, s) ← element (c :: rest)
      let (xs, s) ← readMore element close s.length s
      return (x :: xs, s)

/-- Reads a key, the colon and a value in the way that the key asks for. -/
def readMemberBy {α : Type} (value : String → Reader α) : Reader (String × α)
  | '"' :: s => do
    let (k, s) ← readString s
    match skipSpace s with
    | ':' :: s =>
      let (v, s) ← value k (skipSpace s)
      return ((k, v), s)
    | _ => none
  | _ => none

/-- Reads a key, the colon and the value. -/
def readMember (value : Reader Json) : Reader (String × Json) :=
  readMemberBy fun _ => value

/-- The members of an object in which keys may repeat. -/
def ofMembers (members : List (String × Json)) : List (String × Json) :=
  members.foldl (fun fs m => putKey m.1 m.2 fs) []

/-! ## Values -/

/-- Reads a word, a number or a string. -/
def readScalar : Reader Json
  | '"' :: s => (readString s).map fun parts => (str parts.1, parts.2)
  | s =>
    match readWord s with
    | some parts => some parts
    | none => readNumber s

/-- Reads a value in which at most `depth` arrays and objects lie inside each other. -/
def readValue : Nat → Reader Json
  | 0 => readScalar
  | depth + 1 => fun s =>
    match s with
    | '[' :: s => (readSequence (readValue depth) ']' s).map fun parts => (arr parts.1, parts.2)
    | '{' :: s =>
      (readSequence (readMember (readValue depth)) '}' s).map fun parts =>
        (obj (ofMembers parts.1), parts.2)
    | s => readScalar s

/-- The tree that the text denotes, or none if the text is not a JSON document. -/
def parse? (s : Text) : Option Json :=
  match readValue maxDepth (skipSpace s) with
  | some (v, rest) => if skipSpace rest = [] then some v else none
  | none => none

/-- Whether a value that starts with the character shows by itself where it ends. -/
def isSelfClosing (c : Char) : Bool :=
  c == '"' || c == '[' || c == '{'

/-- Whether what follows a word or a number shows that it has ended: the end of the text, a space,
or a mark of the format. -/
def isEnd : Text → Bool
  | [] => true
  | c :: _ => c.isWhitespace || ['"', '[', ']', '{', '}', ',', ':'].contains c

/-- The value at the front of the text, and what follows it. -/
def readFront? (s : Text) : Option (Json × Text) :=
  let s := skipSpace s
  match readValue maxDepth s with
  | some (v, rest) =>
    if (s.head?.any isSelfClosing) ∨ isEnd rest then some (v, rest) else none
  | none => none

/-! ## What is left is the end of the text

Whatever a reader takes, it takes from the front, so what it leaves is a suffix of the text that it
was given. -/

/-- The reader leaves a suffix of its text. -/
def LeavesSuffix {α : Type} (r : Reader α) : Prop :=
  ∀ {s : Text} {x : α} {rest : Text}, r s = some (x, rest) → rest <:+ s

theorem skipSpace_suffix (s : Text) : skipSpace s <:+ s :=
  List.dropWhile_suffix _

theorem leavesSuffix_readWord : LeavesSuffix readWord := by
  intro s x rest h
  obtain ⟨word, -, hword⟩ := List.exists_of_findSome?_eq_some h
  obtain ⟨rest', hrest, heq⟩ := Option.map_eq_some_iff.1 hword
  cases heq
  exact ⟨word.1, (Text.eq_append_of_isPrefixOf? hrest).symm⟩

theorem leavesSuffix_readNumber : LeavesSuffix readNumber := by
  intro s x rest h
  obtain ⟨n, -, heq⟩ := Option.map_eq_some_iff.1 h
  cases heq
  exact List.dropWhile_suffix _

theorem leavesSuffix_readString : LeavesSuffix readString := by
  intro s x rest h
  obtain ⟨parts, hparts, heq⟩ := Option.map_eq_some_iff.1 h
  cases heq
  exact Quoted.suffix_of_read hparts

theorem leavesSuffix_readMore {α : Type} {element : Reader α} (he : LeavesSuffix element)
    (close : Char) (rounds : Nat) : LeavesSuffix (readMore element close rounds) := by
  induction rounds with
  | zero => intro s x rest h; cases h
  | succ rounds ih =>
    intro s x rest h
    have hspace := skipSpace_suffix s
    unfold readMore at h
    split at h
    · cases h
    · next c tail hs =>
      rw [hs] at hspace
      have htail := (List.suffix_cons c tail).trans hspace
      split at h
      · cases h; exact htail
      · split at h
        · simp only [Option.bind_eq_bind, Option.bind_eq_some_iff] at h
          obtain ⟨⟨y, s₁⟩, hy, ⟨ys, s₂⟩, hys, heq⟩ := h
          cases heq
          exact ((ih hys).trans (he hy)).trans ((skipSpace_suffix tail).trans htail)
        · cases h

theorem leavesSuffix_readSequence {α : Type} {element : Reader α} (he : LeavesSuffix element)
    (close : Char) : LeavesSuffix (readSequence element close) := by
  intro s x rest h
  have hspace := skipSpace_suffix s
  unfold readSequence at h
  split at h
  · cases h
  · next c tail hs =>
    rw [hs] at hspace
    split at h
    · cases h; exact (List.suffix_cons c _).trans hspace
    · simp only [Option.bind_eq_bind, Option.bind_eq_some_iff] at h
      obtain ⟨⟨y, s₁⟩, hy, ⟨ys, s₂⟩, hys, heq⟩ := h
      cases heq
      exact ((leavesSuffix_readMore he close _ hys).trans (he hy)).trans hspace

theorem leavesSuffix_readMember {value : Reader Json} (hv : LeavesSuffix value) :
    LeavesSuffix (readMember value) := by
  intro s x rest h
  unfold readMember readMemberBy at h
  split at h
  · next tail =>
    simp only [Option.bind_eq_bind, Option.bind_eq_some_iff] at h
    obtain ⟨⟨k, s₁⟩, hk, h⟩ := h
    have hspace := skipSpace_suffix s₁
    split at h
    · next s₂ hs =>
      simp only [Option.bind_eq_some_iff] at h
      obtain ⟨⟨v, s₃⟩, hvalue, heq⟩ := h
      cases heq
      rw [hs] at hspace
      exact (((hv hvalue).trans (skipSpace_suffix s₂)).trans
        ((List.suffix_cons _ _).trans hspace)).trans
          ((leavesSuffix_readString hk).trans (List.suffix_cons _ _))
    · cases h
  · cases h

theorem leavesSuffix_readScalar : LeavesSuffix readScalar := by
  intro s x rest h
  unfold readScalar at h
  split at h
  · next tail =>
    obtain ⟨parts, hparts, heq⟩ := Option.map_eq_some_iff.1 h
    cases heq
    exact (leavesSuffix_readString hparts).trans (List.suffix_cons _ _)
  · split at h
    · next parts hparts => cases h; exact leavesSuffix_readWord hparts
    · exact leavesSuffix_readNumber h

theorem leavesSuffix_readValue (depth : Nat) : LeavesSuffix (readValue depth) := by
  induction depth with
  | zero => exact leavesSuffix_readScalar
  | succ depth ih =>
    intro s x rest h
    unfold readValue at h
    split at h
    · next tail =>
      obtain ⟨parts, hparts, heq⟩ := Option.map_eq_some_iff.1 h
      cases heq
      exact (leavesSuffix_readSequence ih _ hparts).trans (List.suffix_cons _ _)
    · next tail =>
      obtain ⟨parts, hparts, heq⟩ := Option.map_eq_some_iff.1 h
      cases heq
      exact (leavesSuffix_readSequence (leavesSuffix_readMember ih) _ hparts).trans
        (List.suffix_cons _ _)
    · exact leavesSuffix_readScalar h

theorem leavesSuffix_readFront? : LeavesSuffix readFront? := by
  intro s x rest h
  unfold readFront? at h
  dsimp only at h
  split at h
  · next v rest' hv =>
    split at h
    · cases h; exact (leavesSuffix_readValue _ hv).trans (skipSpace_suffix s)
    · cases h
  · cases h

end Stencil.Json
