import Stencil.Proofs.Path.Reader

/-!
# Blank characters inside of a bracket

Blank characters next to the brackets of a step do not count, with one exception.
In front of an index, behind it and in front of a quoted key they make no difference.
Behind a quoted key they do: the closing bracket is looked for right behind the quote,
so there it is not seen, and the key goes on to the next quote of its kind that a
closing bracket follows.  If there is none the path cannot be read, and if there is one
the key swallows what lies between (`ofText_bracketed`).
-/

set_option autoImplicit false

namespace Stencil.Path

variable {a b k w w₁ w₂ s s' digits : Text} {q : Char} {p : Path}

/-- A step in brackets, with what the brackets enclose in front of it and behind it. -/
def bracketed (w₁ step w₂ : Text) : Text :=
  '[' :: (w₁ ++ step ++ w₂ ++ [']'])

/-- A key between quotes. -/
def quotedKey (q : Char) (k : Text) : Text :=
  q :: (k ++ [q])

/-- The text can stand in front of a bracket: there is none, or it is a path. -/
def Leads (a : Text) : Prop :=
  a = [] ∨ ∃ p, ofText a = .ok p

/-- The character is a quote, and the key has neither quotes nor a closing bracket. -/
structure PlainKey (q : Char) (k : Text) : Prop where
  quote : isQuote q = true
  plain : ∀ c ∈ k, isQuote c = false ∧ c ≠ ']'

theorem PlainKey.not_mem (key : PlainKey q k) : q ∉ k := by
  intro hq
  have h := (key.plain q hq).1
  rw [key.quote] at h
  cases h

theorem not_mem_of_blank (blank : ∀ c ∈ w, Text.isBlank c = true) (hq : isQuote q = true) :
    q ∉ w := by
  intro hw
  have h := not_isBlank_of_isQuote hq
  rw [blank q hw] at h
  cases h

/-! ## Reading on at a bracket -/

/-- What a bracket is read as does not depend on what leads up to it. -/
theorem exists_ofText_bracket (leads : Leads a) :
    ∃ p, ∀ s, ofText (a ++ '[' :: s) = (readSteps ('[' :: s)).map (p ++ ·) := by
  rcases leads with rfl | ⟨p, hp⟩
  · refine ⟨[], fun s => ?_⟩
    change readSteps ('[' :: s) = _
    cases readSteps ('[' :: s) <;> rfl
  · exact ⟨p, fun s => ofText_append hp (ended_bracket s)⟩

theorem ofText_congr (leads : Leads a) (h : readBracket s = readBracket s') :
    ofText (a ++ '[' :: s) = ofText (a ++ '[' :: s') := by
  obtain ⟨p, hp⟩ := exists_ofText_bracket leads
  rw [hp, hp, readSteps_bracket, readSteps_bracket, h]

/-! ## Blank characters that do not count -/

theorem ofText_digits (leads : Leads a) (blank₁ : ∀ c ∈ w₁, Text.isBlank c = true)
    (blank₂ : ∀ c ∈ w₂, Text.isBlank c = true) (hne : digits ≠ [])
    (hdigits : ∀ c ∈ digits, c.isDigit = true) (b : Text) :
    ofText (a ++ bracketed w₁ digits w₂ ++ b) = ofText (a ++ bracketed [] digits [] ++ b) := by
  have hspread := readBracket_digits blank₁ blank₂ hne hdigits b
  have hclose := readBracket_digits blank_nil blank_nil hne hdigits b
  simp only [bracketed, List.append_assoc, List.cons_append, List.nil_append] at hspread hclose ⊢
  exact ofText_congr leads (hspread.trans hclose.symm)

theorem ofText_quotedKey (leads : Leads a) (hq : isQuote q = true)
    (blank : ∀ c ∈ w, Text.isBlank c = true) (b : Text) :
    ofText (a ++ bracketed w (quotedKey q k) [] ++ b) =
      ofText (a ++ bracketed [] (quotedKey q k) [] ++ b) := by
  have hspread := readBracket_quoted blank hq (k ++ q :: ']' :: b)
  have hclose := readBracket_quoted blank_nil hq (k ++ q :: ']' :: b)
  simp only [bracketed, quotedKey, List.append_assoc, List.cons_append, List.nil_append]
    at hspread hclose ⊢
  exact ofText_congr leads (hspread.trans hclose.symm)

/-! ## Blank characters behind a quoted key -/

/-- A quote with a blank character behind it does not close. -/
theorem splitFirst?_quote_blank (blank : ∀ c ∈ w, Text.isBlank c = true) (hw : w ≠ []) (b : Text) :
    Text.splitFirst? [q, ']'] (q :: (w ++ b)) =
      (Text.splitFirst? [q, ']'] (w ++ b)).map fun parts => (q :: parts.1, parts.2) := by
  obtain ⟨c, w, rfl⟩ := List.exists_cons_of_ne_nil hw
  have hc : ']' ≠ c := by
    rintro rfl
    exact absurd (blank ']' List.mem_cons_self) (by decide)
  simp [Text.splitFirst?, List.isPrefixOf?, hc]

/-- The closing bracket behind the blank characters is not seen. -/
theorem splitFirst?_swallowed (key : PlainKey q k) (blank : ∀ c ∈ w, Text.isBlank c = true)
    (hw : w ≠ []) (b : Text) :
    Text.splitFirst? [q, ']'] (k ++ q :: (w ++ ']' :: b)) =
      (Text.splitFirst? [q, ']'] b).map fun parts =>
        (k ++ q :: (w ++ ']' :: parts.1), parts.2) := by
  have hbracket : q ∉ [']'] := by simpa using ne_bracket_of_isQuote key.quote
  rw [Text.splitFirst?_append_of_not_mem key.not_mem, splitFirst?_quote_blank blank hw,
    Text.splitFirst?_append_of_not_mem (not_mem_of_blank blank key.quote),
    show ']' :: b = [']'] ++ b from rfl, Text.splitFirst?_append_of_not_mem hbracket]
  simp [Function.comp_def]

/-- **Behind a quoted key blank characters hide the bracket.**  The path cannot be read if the quote
does not close later on, and else the key has the bracket and more in it. -/
theorem ofText_swallowed (leads : Leads a) (key : PlainKey q k)
    (blank₁ : ∀ c ∈ w₁, Text.isBlank c = true) (blank₂ : ∀ c ∈ w₂, Text.isBlank c = true)
    (hw : w₂ ≠ []) (b : Text) :
    (¬ ClosesIn q b →
        ofText (a ++ bracketed w₁ (quotedKey q k) w₂ ++ b) = .error .unterminatedBracket) ∧
      ∀ p, ofText (a ++ bracketed w₁ (quotedKey q k) w₂ ++ b) = .ok p →
        ∃ more, .key (String.ofList (k ++ q :: (w₂ ++ ']' :: more))) ∈ p := by
  obtain ⟨p, hp⟩ := exists_ofText_bracket leads
  have hread := readBracket_quoted blank₁ key.quote (k ++ q :: (w₂ ++ ']' :: b))
  rw [readQuoted, splitFirst?_swallowed key blank₂ hw] at hread
  have htext : ofText (a ++ bracketed w₁ (quotedKey q k) w₂ ++ b) = _ :=
    (congrArg ofText (by simp [bracketed, quotedKey])).trans
      (hp (w₁ ++ q :: (k ++ q :: (w₂ ++ ']' :: b))))
  rw [readSteps_bracket, hread] at htext
  refine ⟨fun hopen => ?_, fun path hpath => ?_⟩
  · rw [htext, Text.splitFirst?_eq_none_iff.2 hopen]
    rfl
  · rw [htext] at hpath
    cases hsplit : Text.splitFirst? [q, ']'] b with
    | none =>
        rw [hsplit] at hpath
        cases hpath
    | some parts =>
        rw [hsplit] at hpath
        change ((readSteps parts.2).map _).map _ = .ok path at hpath
        cases hrest : readSteps parts.2 with
        | error fault =>
            rw [hrest] at hpath
            cases hpath
        | ok rest =>
            rw [hrest] at hpath
            cases hpath
            exact ⟨parts.1, List.mem_append_right p List.mem_cons_self⟩

/-- **Blank characters inside of a bracket make no difference** around an index and in front of a
quoted key; behind a quoted key they hide the closing bracket, so that the path is refused or the key
swallows what follows. -/
theorem ofText_bracketed (leads : Leads a) (blank₁ : ∀ c ∈ w₁, Text.isBlank c = true)
    (blank₂ : ∀ c ∈ w₂, Text.isBlank c = true) (b : Text) :
    (∀ digits, digits ≠ [] → (∀ c ∈ digits, c.isDigit = true) →
      ofText (a ++ bracketed w₁ digits w₂ ++ b) = ofText (a ++ bracketed [] digits [] ++ b)) ∧
    ∀ q k, PlainKey q k →
      (w₂ = [] → ofText (a ++ bracketed w₁ (quotedKey q k) w₂ ++ b) =
        ofText (a ++ bracketed [] (quotedKey q k) [] ++ b)) ∧
      (w₂ ≠ [] →
        (¬ ClosesIn q b →
          ofText (a ++ bracketed w₁ (quotedKey q k) w₂ ++ b) = .error .unterminatedBracket) ∧
        ∀ p, ofText (a ++ bracketed w₁ (quotedKey q k) w₂ ++ b) = .ok p →
          ∃ more, .key (String.ofList (k ++ q :: (w₂ ++ ']' :: more))) ∈ p) := by
  refine ⟨fun digits hne hdigits => ofText_digits leads blank₁ blank₂ hne hdigits b,
    fun q k key => ⟨?_, fun hw => ofText_swallowed leads key blank₁ blank₂ hw b⟩⟩
  rintro rfl
  exact ofText_quotedKey leads key.quote blank₁ b

theorem ofText_bracketed_spaced :
    ofText "a.b[ \u00a02\t].d".toList = ofText "a.b[2].d".toList ∧
      ofText "a.b[ \u00a0'c'].d".toList = ofText "a.b['c'].d".toList ∧
      ofText "a.b[ \u00a0'c'\t].d".toList = .error .unterminatedBracket := by
  have leads : Leads "a.b".toList := .inr ⟨[.key "a", .key "b"], by with_unfolding_all rfl⟩
  have front : ∀ c ∈ [' ', '\u00a0'], Text.isBlank c = true := List.all_eq_true.1 rfl
  have back : ∀ c ∈ ['\t'], Text.isBlank c = true := List.all_eq_true.1 rfl
  have key : PlainKey '\'' ['c'] := ⟨rfl, List.forall_mem_singleton.2 (by decide)⟩
  have spaced := ofText_bracketed leads front back ".d".toList
  have closed := ofText_bracketed leads front blank_nil ".d".toList
  exact ⟨spaced.1 ['2'] (by decide) (List.all_eq_true.1 rfl), (closed.2 _ _ key).1 rfl,
    ((spaced.2 _ _ key).2 (by decide)).1 (by decide)⟩

/-- A space behind a quoted key, and the path is refused or a later key is swallowed. -/
theorem ofText_spaced_key :
    ofText "a[\"b\"]".toList = .ok [.key "a", .key "b"] ∧
      ofText "a[\"b\" ]".toList = .error .unterminatedBracket ∧
      ofText "a[\"b\" ].c[\"d\"]".toList = .ok [.key "a", .key "b\" ].c[\"d"] := by
  refine ⟨?_, ?_, ?_⟩ <;> with_unfolding_all rfl

end Stencil.Path
