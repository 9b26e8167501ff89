import Stencil.Json.Basic
import Stencil.Json.Quoted

/-!
# The text of a JSON tree

`render` writes a tree as compact JSON, without any space between its tokens.

`inline` is the text that a tree leaves inside a longer text.  There a string
stands for itself, without quotes, and a double that equals an integer is written
like the integer, so that `5` and `5.0` leave the same text.  Only the tree as a
whole is treated like this: inside an array or an object everything is written as
JSON.
-/

namespace Stencil.Json

set_option autoImplicit false

mutual

/-- The tree as compact JSON. -/
def render : Json → Text
  | null => "null".toList
  | bool true => "true".toList
  | bool false => "false".toList
  | num n => n.toText
  | str s => Quoted.quote s.toList
  | arr [] => ['[', ']']
  | arr (x :: xs) => '[' :: (render x ++ renderItems xs)
  | obj [] => ['{', '}']
  | obj ((k, v) :: fs) => '{' :: (Quoted.quote k.toList ++ ':' :: (render v ++ renderFields fs))

/-- The elements after the first one, with the bracket that closes the array. -/
def renderItems : List Json → Text
  | [] => [']']
  | x :: xs => ',' :: (render x ++ renderItems xs)

/-- The members after the first one, with the brace that closes the object. -/
def renderFields : List (String × Json) → Text
  | [] => ['}']
  | (k, v) :: fs => ',' :: (Quoted.quote k.toList ++ ':' :: (render v ++ renderFields fs))

end

/-- The text that the tree leaves inside a longer text. -/
def inline : Json → Text
  | str s => s.toList
  | num (.float x) => (Number.ofDouble x).toText
  | v => render v

end Stencil.Json
