import Stencil.Line.Reader
import Stencil.Options.Basic

/-!
# Filling a template string

Each token is resolved against the data: the value at its path, or its default if
there is no value or null, cast to the declared type.  A string that is one whole
token becomes the value itself.  In every other string with tokens each token is
replaced by the text of its value.  A string without tokens stays as it is.

If a token has neither a value nor a default, filling fails, or the string stays as
it was written, whole, if the options allow that.
-/

namespace Stencil

set_option autoImplicit false

/-- The path that the token names. -/
def Token.readPath (t : Token) : Except Fault Path :=
  match Path.ofText t.path with
  | .error cause => .error (.badPath t.path cause)
  | .ok path => .ok path

/-- The value cast to the type that the token declares. -/
def Token.applyCast (t : Token) (v : Json) : Except Fault Json :=
  match t.cast.apply v with
  | .error cause => .error (.uncastable cause)
  | .ok v => .ok v

/-- The value for the token before it is cast: what the data holds at the path, unless that is
null, and else the default. -/
def Token.source? (t : Token) (data : Json) (path : Path) : Option Json :=
  match data.get? path with
  | some v => if v.isNull then t.fallback else some v
  | none => t.fallback

/-- The value that the token is replaced by. -/
def Token.resolve (t : Token) (data : Json) : Except Fault Json := do
  let path ← t.readPath
  match t.source? data path with
  | some v => t.applyCast v
  | none => .error (.missing t.expression)

namespace Line

/-- The text of the runs and the tail with every token replaced by the text of its value. -/
def fillRuns (data : Json) (tail : Text) : List (Text × Token) → Except Fault Text
  | [] => .ok tail
  | (literal, token) :: runs => do
    let v ← token.resolve data
    let rest ← fillRuns data tail runs
    return literal ++ v.inline ++ rest

/-- The value that the line becomes. -/
def fill (l : Line) (data : Json) : Except Fault Json :=
  match l.whole? with
  | some token => token.resolve data
  | none => do
    let text ← fillRuns data l.tail l.runs
    return .str (String.ofList text)

end Line

/-- The value that a template string becomes. -/
def fillString (o : Options) (data : Json) (s : String) : Except Fault Json := do
  let line ← Line.ofText o.delimiters s.toList
  match line.fill data with
  | .error (.missing expression) =>
    if o.allowMissing then .ok (.str s) else .error (.missing expression)
  | answer => answer

end Stencil
