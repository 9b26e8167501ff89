import Stencil.Cast
import Stencil.Json.Equality

/-!
# Tokens

A token is the part of a template string that a value is put in for.  It names a
path, the type its value is cast to, and a default or none.  It also keeps how it
was written: the whole of it, and its expression, which is the path and the
default without the delimiters and the type.
-/

namespace Stencil

set_option autoImplicit false

/-- A token of a template string. -/
structure Token where
  /-- The type that the value is cast to. -/
  cast : Cast
  /-- The text of the path. -/
  path : Text
  /-- The value that stands in for a missing one. -/
  fallback : Option Json
  /-- The path and the default as they were written. -/
  expression : Text
  /-- The whole token as it was written, delimiters included. -/
  written : Text

end Stencil
