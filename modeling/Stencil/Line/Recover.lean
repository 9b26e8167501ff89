import Stencil.Json.Merge
import Stencil.Line.Capture
import Stencil.Line.Fill
import Stencil.Line.Pattern

/-!
# Recovering data from what a string became

The other direction: from a template string and the value it became, the data that
the tokens were replaced by.  The result is a fragment of the data, in which each
token's value stands at the token's path; a path written twice keeps the value of
its last token.

If the string is one whole token, the value is what the token was replaced by.
Otherwise the text of the value is cut along the literal texts of the string, by an
engine that has to take the pattern of the string first.  In both cases a value that
looks like the token's default is taken to be the default, and any other is cast to
the declared type.
-/

namespace Stencil

set_option autoImplicit false

/-- The fragment with the value at the token's path. -/
def Token.place (t : Token) (v fragment : Json) : Except Fault Json := do
  let path ← t.readPath
  let piece := Json.assign v path (.obj [])
  match piece.refused with
  | some _ => .error (.badPath t.path .indexTooLarge)
  | none => .ok (fragment.merge piece.tree)

/-- The value that the token was replaced by, if it became this value. -/
def Token.recoverValue (t : Token) (v : Json) : Except Fault Json :=
  match t.fallback with
  | some d => if d.same v then .ok d else t.applyCast v
  | none => t.applyCast v

/-- The value that the token was replaced by, if it became this text. -/
def Token.recoverText (t : Token) (s : Text) : Except Fault Json :=
  match t.fallback with
  | some d => if d.inline = s then .ok d else t.applyCast (.str (String.ofList s))
  | none => t.applyCast (.str (String.ofList s))

namespace Line

/-- The expression of the first token. -/
def firstExpression (l : Line) : Text :=
  (l.tokens.head?.map Token.expression).getD []

/-- The text that a value at the place of the string has; absent values and null have none. -/
def producedText? : Option Json → Option Text
  | none => none
  | some v => if v.isNull then none else some v.inline

/-- The fault of a string whose pattern the engine refuses: it names the string and the reason. -/
def refusedFault (l : Line) (reason : Text) : Fault :=
  .mismatch (l.text ++ " (".toList ++ reason ++ [')'])

/-- The texts that the tokens of the line became, given the value at the place of the line. -/
def captures [Engine] (l : Line) (produced : Option Json) : Except Fault (List Text) :=
  match producedText? produced with
  | none => .error (.mismatch l.firstExpression)
  | some s =>
    match Engine.refusal? l.pattern with
    | some reason => .error (l.refusedFault reason)
    | none =>
      match l.capture? s with
      | none => .error (.mismatch l.firstExpression)
      | some texts => .ok texts

/-- The fragment with what the tokens were replaced by, given the text that each became. -/
def placeTexts (fragment : Json) : List (Token × Text) → Except Fault Json
  | [] => .ok fragment
  | (token, s) :: rest => do
    let v ← token.recoverText s
    let fragment ← token.place v fragment
    placeTexts fragment rest

/-- The data that the line was filled with, given the value that it became. -/
def recover [Engine] (l : Line) (produced : Option Json) : Except Fault Json :=
  match l.runs with
  | [] => .ok (.obj [])
  | _ =>
    match l.whole? with
    | some token =>
      match produced with
      | none => .ok (.obj [])
      | some v => do
        let v ← token.recoverValue v
        token.place v (.obj [])
    | none => do
      let texts ← l.captures produced
      placeTexts (.obj []) (l.tokens.zip texts)

end Line

/-- The data that a template string was filled with, given the value that it became. -/
def recoverString [Engine] (d : Delimiters) (s : String) (produced : Option Json) :
    Except Fault Json := do
  let line ← Line.ofText d s.toList
  line.recover produced

end Stencil
