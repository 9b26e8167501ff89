import Stencil.Proofs.Line.Faults
import Stencil.Proofs.Template.Recover

/-!
# What the operations on templates can fail with

Filling fails with a missing variable and never with a mismatch, and recovering fails
with a mismatch and never with a missing variable.  Both can fail with a default that
cannot be read, a value that cannot be cast and a path that cannot be used.  Asking
whether a tree fits a template recovers from the tree and then fills the template
again.  It can fail with what recovering can fail with and nothing else, since a
variable that is missing when the template is filled again only means that the tree
does not fit (`faults_of_template`).

The second stage takes the same strings apart as the first.  So a default that cannot
be read is a fault of the first stage already.  A path that cannot be read need not
be: the first stage looks at the path of a token only if there is a value for it.
-/

set_option autoImplicit false

namespace Stencil

/-- The faults of filling. -/
inductive Fault.OfFilling : Fault → Prop where
  | missing (expression : Text) : OfFilling (.missing expression)
  | uncastable (cause : CastFault) : OfFilling (.uncastable cause)
  | badDefault (expression : Text) : OfFilling (.badDefault expression)
  | badPath (path : Text) (cause : PathFault) : OfFilling (.badPath path cause)

/-- The faults of recovering. -/
inductive Fault.OfRecovering : Fault → Prop where
  | uncastable (cause : CastFault) : OfRecovering (.uncastable cause)
  | mismatch (expression : Text) : OfRecovering (.mismatch expression)
  | badDefault (expression : Text) : OfRecovering (.badDefault expression)
  | badPath (path : Text) (cause : PathFault) : OfRecovering (.badPath path cause)

theorem Fault.OfData.ofFilling {fault : Fault} (h : fault.OfData) : fault.OfFilling := by
  cases h with
  | uncastable cause => exact .uncastable cause
  | badPath path cause => exact .badPath path cause

theorem Fault.OfData.ofRecovering {fault : Fault} (h : fault.OfData) : fault.OfRecovering := by
  cases h with
  | uncastable cause => exact .uncastable cause
  | badPath path cause => exact .badPath path cause

variable {o : Options} {data : Json}

/-! ## One string -/

theorem failsWith_fillString (o : Options) (data : Json) (s : String) :
    FailsWith Fault.OfFilling (fillString o data s) := by
  intro fault h
  rcases fault_of_fillString h with hline | ⟨l, -, hfill⟩
  · cases Line.failsWith_ofText _ _ fault hline with
    | badDefault expression => exact .badDefault expression
  · rcases Line.failsWith_fill l data fault hfill with ofData | missing
    · exact ofData.ofFilling
    · cases fault with
      | missing expression => exact .missing expression
      | uncastable _ | mismatch _ | badDefault _ | badPath _ _ | badDelimiters _ => cases missing

theorem failsWith_recoverString [Engine] (d : Delimiters) (s : String) (produced : Option Json) :
    FailsWith Fault.OfRecovering (recoverString d s produced) := by
  apply FailsWith.bind
  · intro fault hline
    cases Line.failsWith_ofText _ _ fault hline with
    | badDefault expression => exact .badDefault expression
  · intro l _ fault hrecover
    rcases Line.failsWith_recover l produced fault hrecover with ofData | ⟨-, rfl⟩ | ⟨_, -, rfl⟩
    · exact ofData.ofRecovering
    · exact .mismatch _
    · exact .mismatch _

namespace Template

variable {t : Template} {v : Json}

/-! ## The operations -/

theorem failsWith_fill (o : Options) (data : Json) (t : Template) :
    FailsWith Fault.OfFilling (fill o data t) := by
  intro fault h
  obtain ⟨-, s, -, -, -, hs, -⟩ := fill_eq_error_iff.1 h
  exact failsWith_fillString o data s fault hs

variable [Engine]

theorem failsWith_recover (d : Delimiters) (t : Template) (v : Json) :
    FailsWith Fault.OfRecovering (recover d t v) := by
  apply FailsWith.foldlM
  intro leaf _ data
  apply (failsWith_recoverString d leaf.1 leaf.2).bind
  intro fragment _
  exact failsWith_ok _

/-- **Where recovering has an answer, every string of the template can be taken apart**, so filling
it fails only with a missing variable, a value that cannot be cast or a path that cannot be read. -/
theorem failsWith_fill_of_recover {data' : Json} (h : recover o.delimiters t v = .ok data') :
    FailsWith (fun fault => fault.OfData ∨ fault.isMissing = true) (fill o data t) := by
  obtain ⟨placed, hplaced, -⟩ := recover_eq_ok_iff.1 h
  obtain ⟨lines, hlines, -⟩ := exists_lines_of_givesBack hplaced
  intro fault hfill
  obtain ⟨before, s, after, hstrings, -, hs, -⟩ := fill_eq_error_iff.1 hfill
  have hmem : s ∈ t.strings := by
    rw [hstrings]
    exact List.mem_append_right before List.mem_cons_self
  obtain ⟨l, -, hline⟩ := exists_line_of_mem_strings hlines hmem
  rcases fault_of_fillString hs with hfault | ⟨l', -, hfault⟩
  · cases hline.symm.trans hfault
  · exact Line.failsWith_fill l' data fault hfault

/-- What the second stage fails with decides the answer: a missing variable means no fit, and any
other fault is the fault of the whole. -/
theorem fits_of_fill_error {data' : Json} {fault : Fault}
    (hrecover : recover o.delimiters t v = .ok data') (hfill : fill o.strict data' t = .error fault) :
    (∃ expression, fault = .missing expression) ∧ fits o t v = .ok false ∨
      fault.OfData ∧ fits o t v = .error fault := by
  rcases failsWith_fill_of_recover (o := o.strict) hrecover fault hfill with ofData | missing
  · refine .inr ⟨ofData, ?_⟩
    rw [fits, hrecover, ok_bind, hfill]
    cases ofData <;> rfl
  · cases fault with
    | missing expression =>
        refine .inl ⟨⟨expression, rfl⟩, ?_⟩
        rw [fits, hrecover, ok_bind, hfill]
    | uncastable _ | mismatch _ | badDefault _ | badPath _ _ | badDelimiters _ => cases missing

theorem failsWith_fits (o : Options) (t : Template) (v : Json) :
    FailsWith Fault.OfRecovering (fits o t v) := by
  intro fault h
  cases hrecover : recover o.delimiters t v with
  | error fault' =>
      rw [fits, hrecover] at h
      cases h
      exact failsWith_recover o.delimiters t v fault hrecover
  | ok data =>
      cases hfill : fill o.strict data t with
      | ok again =>
          rw [fits, hrecover, ok_bind, hfill] at h
          cases h
      | error fault' =>
          rcases fits_of_fill_error hrecover hfill with ⟨-, hfits⟩ | ⟨ofData, hfits⟩
          · cases h.symm.trans hfits
          · cases h.symm.trans hfits
            exact ofData.ofRecovering

/-- **What the operations can fail with.** Filling never ends in a mismatch, recovering and asking
for a fit never in a missing variable, and the answer to the latter does not depend on whether
variables may be missing. Once data has been recovered, filling with it fails only with a missing
variable, which means no fit, or with a value that cannot be cast or a path that cannot be read,
which is then the fault of the whole. -/
theorem faults_of_template (o : Options) (data : Json) (t : Template) (v : Json) :
    FailsWith Fault.OfFilling (fill o data t) ∧
      FailsWith Fault.OfRecovering (recover o.delimiters t v) ∧
      FailsWith Fault.OfRecovering (fits o t v) ∧
      (∀ o' : Options, o'.delimiters = o.delimiters → fits o' t v = fits o t v) ∧
      ∀ data' fault, recover o.delimiters t v = .ok data' → fill o.strict data' t = .error fault →
        (∃ expression, fault = .missing expression) ∧ fits o t v = .ok false ∨
          fault.OfData ∧ fits o t v = .error fault := by
  refine ⟨failsWith_fill o data t, failsWith_recover o.delimiters t v, failsWith_fits o t v, ?_,
    fun _ _ => fits_of_fill_error⟩
  intro o' hdelimiters
  have hstrict : o'.strict = o.strict := by rw [Options.strict, Options.strict, hdelimiters]
  rw [fits, fits, hdelimiters, hstrict]

end Template

end Stencil
