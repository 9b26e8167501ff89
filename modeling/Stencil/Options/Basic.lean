import Stencil.Delimiters

/-!
# Options

The options of all operations on templates: the delimiters of the tokens, and
whether a string with a missing variable may stay as it is.
-/

namespace Stencil

set_option autoImplicit false

/-- The options of the operations on templates. -/
structure Options where
  /-- The marks that bound a token. -/
  delimiters : Delimiters := .default
  /-- Whether filling leaves a string with a missing variable as it is. -/
  allowMissing : Bool := false
deriving DecidableEq

namespace Options

instance : Inhabited Options := ⟨{}⟩

/-- The same options, under which a missing variable is a fault. -/
def strict (o : Options) : Options :=
  { o with allowMissing := false }

@[simp] theorem delimiters_strict (o : Options) : o.strict.delimiters = o.delimiters := rfl

@[simp] theorem allowMissing_strict (o : Options) : o.strict.allowMissing = false := rfl

end Options

end Stencil
