import Stencil.Proofs.Text.Blank
import Stencil.Proofs.Text.Search
import Stencil.Token.Reader

/-!
# The shape of a token

A token that is read lies at the front of the text behind its opening delimiter, in one of
two ways.  Without a default it goes up to the first closing delimiter.  With a default
the path stands in front of a double bar, and the default may go on behind the first
closing delimiter.  `Heads` says both, and it is exactly what the reader answers
(`read?_eq_token_iff`), so what is known of all tokens is shown by the two cases.

Whatever the delimiters are, a token is sound (`sound_of_heads`).  It stands between its
delimiters with something between them; its path is trimmed, not empty, and contains
neither a double bar nor the closing delimiter; and its expression is trimmed and starts
with the path, which is all of it if there is no default.
-/

set_option autoImplicit false

namespace Stencil.Token

variable {d : Delimiters} {body rest : Text} {token : Token}

/-- The token lies at the front of the text behind its opening delimiter, and this follows it. -/
inductive Heads (d : Delimiters) (body : Text) : Token → Text → Prop where
  | plain {content inner after : Text} {cast : Cast}
      (first : Text.splitFirst? d.closing body = some (content, after))
      (declared : Cast.splitTag content = (cast, inner))
      (unmarked : Text.splitFirst? defaultMark inner = none)
      (named : Text.trim inner ≠ []) :
      Heads d body
        ⟨cast, Text.trim inner, none, Text.trim inner, d.opening ++ content ++ d.closing⟩ after
  | marked {content tag inner front source skipped after rest : Text} {cast : Cast} {v : Json}
      (first : Text.splitFirst? d.closing body = some (content, after))
      (declared : Cast.splitTag content = (cast, inner))
      (tagged : content = tag ++ inner)
      (mark : Text.splitFirst? defaultMark inner = some (front, source))
      (named : Text.trim front ≠ [])
      (fallback : readDefault? d.closing source after = some (v, rest))
      (goesOn : source ++ d.closing ++ after = skipped ++ d.closing ++ rest) :
      Heads d body
        ⟨cast, Text.trim front, some v, Text.trim (front ++ defaultMark ++ skipped),
          d.opening ++ (tag ++ front ++ defaultMark ++ skipped) ++ d.closing⟩ rest

/-! ## What the reader answers -/

/-- A default that was read ends in front of a closing delimiter, at the first one or behind it. -/
theorem exists_skipped {closing source after : Text} {v : Json}
    (h : readDefault? closing source after = some (v, rest)) :
    ∃ skipped, source ++ closing ++ after = skipped ++ closing ++ rest := by
  obtain ⟨skipped, hskipped⟩ := suffix_of_readDefault? h
  exact ⟨skipped, by rw [← hskipped, List.append_assoc]⟩

/-- The text behind the opening delimiter, up to the double bar and from there on. -/
theorem body_eq {closing content tag inner front source skipped after : Text}
    (hbody : body = content ++ closing ++ after) (tagged : content = tag ++ inner)
    (hinner : inner = front ++ defaultMark ++ source)
    (goesOn : source ++ closing ++ after = skipped ++ closing ++ rest) :
    inner ++ closing ++ after = front ++ defaultMark ++ skipped ++ (closing ++ rest) ∧
      body = tag ++ front ++ defaultMark ++ skipped ++ closing ++ rest := by
  simp only [hbody, tagged, hinner, List.append_assoc] at goesOn ⊢
  rw [goesOn]
  exact ⟨rfl, rfl⟩

theorem heads_of_read? (h : read? d body = .ok (some (token, rest))) : Heads d body token rest := by
  unfold read? at h
  split at h
  · cases h
  · next content after first =>
    obtain ⟨tag, htag⟩ := suffix_splitTag content
    cases declared : Cast.splitTag content with
    | mk cast inner =>
        rw [declared] at htag h
        dsimp only at htag h
        split at h
        · next unmarked =>
          split at h
          · cases h
          · next named =>
            cases h
            exact .plain first declared unmarked named
        · next front source mark =>
          split at h
          · cases h
          · next named =>
            split at h
            · cases h
            · next v rest' fallback =>
              cases h
              obtain ⟨skipped, goesOn⟩ := exists_skipped fallback
              obtain ⟨behind, hbody⟩ := body_eq (Text.eq_append_of_splitFirst? first) htag.symm
                (Text.eq_append_of_splitFirst? mark) goesOn
              have hbefore : Text.before body rest =
                  tag ++ front ++ defaultMark ++ skipped ++ d.closing := by
                rw [hbody, Text.before_append]
              rw [behind, Text.before_append, hbefore, ← List.append_assoc d.opening]
              exact .marked first declared htag.symm mark named fallback goesOn

theorem read?_of_heads (h : Heads d body token rest) : read? d body = .ok (some (token, rest)) := by
  cases h with
  | plain first declared unmarked named =>
      simp only [read?, first, declared, unmarked, if_neg named]
  | marked first declared tagged mark named fallback goesOn =>
      obtain ⟨behind, hbody⟩ := body_eq (Text.eq_append_of_splitFirst? first) tagged
        (Text.eq_append_of_splitFirst? mark) goesOn
      simp only [read?, first, declared, mark, if_neg named, fallback, behind, Text.before_append]
      rw [hbody, Text.before_append, ← List.append_assoc d.opening]

/-- **The reader answers with a token exactly if the token lies at the front of the text.** -/
theorem read?_eq_token_iff :
    read? d body = .ok (some (token, rest)) ↔ Heads d body token rest :=
  ⟨heads_of_read?, read?_of_heads⟩

/-- What the path is trimmed from: the content of a token behind its tag, up to the double bar. -/
def pathText (content : Text) : Text :=
  match Text.splitFirst? defaultMark (Cast.splitTag content).2 with
  | none => (Cast.splitTag content).2
  | some (front, _) => front

/-- **There is no token exactly if there is no closing delimiter, or no path in front of the first
one.** -/
theorem read?_eq_none_iff :
    read? d body = .ok none ↔ ∀ {content after},
      Text.splitFirst? d.closing body = some (content, after) → Text.trim (pathText content) = [] := by
  cases first : Text.splitFirst? d.closing body with
  | none =>
      rw [read?, first]
      exact ⟨fun _ => nofun, fun _ => rfl⟩
  | some parts =>
      obtain ⟨content, after⟩ := parts
      have honly : (∀ {content' after'}, some (content, after) = some (content', after') →
          Text.trim (pathText content') = []) ↔ Text.trim (pathText content) = [] :=
        ⟨fun h => h rfl, fun h _ _ heq => by cases heq; exact h⟩
      rw [honly, read?, first, pathText]
      dsimp only
      cases mark : Text.splitFirst? defaultMark (Cast.splitTag content).2 with
      | none =>
          dsimp only
          split
          · next unnamed => exact ⟨fun _ => unnamed, fun _ => rfl⟩
          · next named => exact ⟨nofun, fun unnamed => absurd unnamed named⟩
      | some parts =>
          dsimp only
          split
          · next unnamed => exact ⟨fun _ => unnamed, fun _ => rfl⟩
          · next named =>
            refine ⟨fun h => ?_, fun unnamed => absurd unnamed named⟩
            split at h <;> cases h

/-! ## Sound tokens -/

/-- What holds of every token of a template, whatever the delimiters are. -/
structure Sound (d : Delimiters) (t : Token) : Prop where
  bounded : ∃ content, content ≠ [] ∧ t.written = d.opening ++ content ++ d.closing
  path_ne_nil : t.path ≠ []
  trim_path : Text.trim t.path = t.path
  unmarked : ¬ defaultMark <:+: t.path
  unclosed : ¬ d.closing <:+: t.path
  trim_expression : Text.trim t.expression = t.expression
  path_isPrefix : t.path <+: t.expression
  expression_eq : t.fallback = none → t.expression = t.path

/-- Between the opening delimiter and the first closing delimiter stands what is left of the content
behind its tag. -/
theorem inner_isInfix {content inner : Text} {cast : Cast}
    (declared : Cast.splitTag content = (cast, inner)) : inner <:+: content := by
  have hsuffix := suffix_splitTag content
  rw [declared] at hsuffix
  exact hsuffix.isInfix

theorem ne_nil_of_trim_isInfix {s t : Text} (h : Text.trim s ≠ []) (hst : s <:+: t) : t ≠ [] := by
  rintro rfl
  rw [List.infix_nil.1 hst] at h
  exact h rfl

/-- **Every token that is read is sound.** -/
theorem sound_of_heads (h : Heads d body token rest) : token.Sound d := by
  cases h with
  | plain first declared unmarked named =>
      have hinner := inner_isInfix declared
      have hpath := (Text.trim_isInfix _).trans hinner
      exact
        { bounded := ⟨_, ne_nil_of_trim_isInfix named hinner, rfl⟩
          path_ne_nil := named
          trim_path := Text.trim_trim _
          unmarked := fun hmark =>
            Text.splitFirst?_eq_none_iff.1 unmarked (hmark.trans (Text.trim_isInfix _))
          unclosed := fun hclosing =>
            Text.not_infix_of_splitFirst? d.closing_ne_nil first (hclosing.trans hpath)
          trim_expression := Text.trim_trim _
          path_isPrefix := List.prefix_refl _
          expression_eq := fun _ => rfl }
  | @marked content tag inner front source skipped after rest cast v first declared tagged mark named
      fallback goesOn =>
      have hinner := Text.eq_append_of_splitFirst? mark
      have hfront : front <:+: inner := ⟨[], defaultMark ++ source, by
        rw [hinner, List.nil_append, List.append_assoc]⟩
      have hpath := ((Text.trim_isInfix front).trans hfront).trans (inner_isInfix declared)
      -- the double bar is not blank, so nothing behind the path is trimmed off in front of it
      have hexpression : front ++ defaultMark ++ skipped = front ++ '|' :: '|' :: skipped := by
        rw [List.append_assoc]
        rfl
      exact
        { bounded := ⟨_, by simp [defaultMark], rfl⟩
          path_ne_nil := named
          trim_path := Text.trim_trim _
          unmarked := fun hmark => Text.not_infix_of_splitFirst? (by decide) mark
            (hmark.trans (Text.trim_isInfix _))
          unclosed := fun hclosing =>
            Text.not_infix_of_splitFirst? d.closing_ne_nil first (hclosing.trans hpath)
          trim_expression := Text.trim_trim _
          path_isPrefix := by
            rw [hexpression]
            exact Text.trim_isPrefix_trim named (by decide) _
          expression_eq := nofun }

end Stencil.Token
