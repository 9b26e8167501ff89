import Stencil.Token.Basic

/-!
# Template strings

A string of a template alternates between literal text and tokens, and a `Line`
is such a string taken apart.  The literal texts and the written tokens, one
after the other, are the string again, so a line stands for the string and for
its tokens at once and no offsets are needed.  Where offsets are asked for, they
are sums of byte lengths.
-/

namespace Stencil

set_option autoImplicit false

/-- A template string as literal texts and tokens: each token with the literal text in front of it,
and the literal text after the last token. -/
structure Line where
  /-- The tokens, each after its literal text. -/
  runs : List (Text × Token)
  /-- The literal text after the last token. -/
  tail : Text

namespace Line

/-- The string that was taken apart. -/
def text (l : Line) : Text :=
  l.runs.flatMap (fun run => run.1 ++ run.2.written) ++ l.tail

/-- The tokens in their order. -/
def tokens (l : Line) : List Token :=
  l.runs.map Prod.snd

/-- The line with literal text put in front of it. -/
def prepend (literal : Text) (l : Line) : Line :=
  match l.runs with
  | [] => ⟨[], literal ++ l.tail⟩
  | (first, token) :: runs => ⟨(literal ++ first, token) :: runs, l.tail⟩

/-- The line with literal text and a token put in front of it. -/
def cons (literal : Text) (token : Token) (l : Line) : Line :=
  ⟨(literal, token) :: l.runs, l.tail⟩

/-- The token that makes up the whole string. -/
def whole? (l : Line) : Option Token :=
  match l.runs, l.tail with
  | [([], token)], [] => some token
  | _, _ => none

/-- The tokens with the offsets at which they start and end, counted in bytes. -/
def spans (l : Line) : List (Nat × Nat × Token) :=
  go 0 l.runs
where
  /-- The tokens of the runs that start at an offset. -/
  go (offset : Nat) : List (Text × Token) → List (Nat × Nat × Token)
    | [] => []
    | (literal, token) :: runs =>
      let start := offset + literal.byteLength
      let stop := start + token.written.byteLength
      (start, stop, token) :: go stop runs

@[simp] theorem text_prepend (literal : Text) (l : Line) :
    (l.prepend literal).text = literal ++ l.text := by
  obtain ⟨runs, tail⟩ := l
  cases runs <;> simp [prepend, text]

@[simp] theorem text_cons (literal : Text) (token : Token) (l : Line) :
    (l.cons literal token).text = literal ++ token.written ++ l.text := by
  simp [cons, text]

@[simp] theorem tokens_prepend (literal : Text) (l : Line) :
    (l.prepend literal).tokens = l.tokens := by
  obtain ⟨runs, tail⟩ := l
  cases runs <;> simp [prepend, tokens]

@[simp] theorem tokens_cons (literal : Text) (token : Token) (l : Line) :
    (l.cons literal token).tokens = token :: l.tokens := rfl

end Line

end Stencil
