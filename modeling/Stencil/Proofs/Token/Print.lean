import Stencil.Proofs.Json.Render
import Stencil.Proofs.Text.Search
import Stencil.Token.Reader

/-!
# Printing a token and reading it back

A slot is what a token says: a type, a path and a default.  It is printed between
the delimiters, with the compact text of the default.  A printed slot is read back
(`read?_print`) although the default may contain the closing delimiter, double bars
and anything else.  If the first closing delimiter lies within the default, what
stands before it is only a beginning of the default's text, which is no document;
so the default is read once more from the front of the whole text, and that reading
ends where the default ends.
-/

set_option autoImplicit false

namespace Stencil

/-- The declared type as it is written in front of a path. -/
def Cast.written : Cast → Text
  | asIs => []
  | string => "string:".toList
  | number => "number:".toList
  | object => "object:".toList

/-- What a token says. -/
structure Slot where
  /-- The declared type. -/
  cast : Cast
  /-- The text of the path. -/
  path : Text
  /-- The default. -/
  fallback : Option Json

namespace Slot

/-- The text between the path and the default. -/
def separator : Text := " || ".toList

/-- The path and the default as they are printed. -/
def expression (s : Slot) : Text :=
  match s.fallback with
  | none => s.path
  | some v => s.path ++ separator ++ v.render

/-- The printed slot. -/
def print (d : Delimiters) (s : Slot) : Text :=
  d.opening ++ (s.cast.written ++ s.expression) ++ d.closing

/-- The token that the printed slot is. -/
def token (d : Delimiters) (s : Slot) : Token :=
  ⟨s.cast, s.path, s.fallback, s.expression, s.print d⟩

/-- The part of the printed expression in which no closing delimiter may start: all of it, or what
stands before a default that shows by itself where it ends. -/
def guarded (s : Slot) : Text :=
  match s.fallback with
  | none => s.path
  | some v => if v.isClosed then s.path ++ separator else s.path ++ separator ++ v.render

/-- The slot can be read back once it is printed. -/
structure Printable (d : Delimiters) (s : Slot) : Prop where
  path_ne_nil : s.path ≠ []
  trim_path : Text.trim s.path = s.path
  unmarked : ¬ Token.defaultMark <:+: s.path
  untagged : s.cast = .asIs → ∀ tag ∈ Cast.tags, ¬ tag.1 ++ [':'] <+: s.path
  readsBack : ∀ v, s.fallback = some v → Json.parse? v.render = some v
  closing_first : ∀ a b, s.cast.written ++ s.expression ++ d.closing = a ++ d.closing ++ b →
    (s.cast.written ++ s.guarded).length ≤ a.length

end Slot

/-! ## The parts of the content -/

namespace Cast

theorem splitTag_of_tag (tag : Text) {c : Cast} (h : (tag, c) ∈ tags) (content : Text) :
    splitTag (tag ++ ':' :: content) = (c, content) := by
  simp only [tags, List.mem_cons, List.not_mem_nil, or_false, Prod.mk.injEq] at h
  rcases h with ⟨rfl, rfl⟩ | ⟨rfl, rfl⟩ | ⟨rfl, rfl⟩ <;> rfl

theorem splitTag_of_untagged {content : Text} (htrim : Text.trimStart content = content)
    (h : ∀ tag ∈ tags, ¬ tag.1 ++ [':'] <+: content) : splitTag content = (.asIs, content) := by
  have none : (tags.findSome? fun tag => ((tag.1 ++ [':']).isPrefixOf? content).map
      fun inner => (tag.2, inner)) = none := by
    rw [List.findSome?_eq_none_iff]
    intro tag htag
    cases hfound : (tag.1 ++ [':']).isPrefixOf? content with
    | none => rfl
    | some inner => exact absurd ⟨inner, (Text.eq_append_of_isPrefixOf? hfound).symm⟩ (h tag htag)
  rw [splitTag, htrim, none]
  rfl

/-- A tag that no path starts with is not at the front of the path with a space behind it. -/
theorem not_prefix_append_space {path : Text} (more : Text)
    (h : ∀ tag ∈ tags, ¬ tag.1 ++ [':'] <+: path) :
    ∀ tag ∈ tags, ¬ tag.1 ++ [':'] <+: path ++ ' ' :: more := by
  intro tag htag hprefix
  rcases Nat.le_total (tag.1 ++ [':']).length path.length with hle | hle
  · exact h tag htag (List.prefix_of_prefix_length_le hprefix (List.prefix_append _ _) hle)
  · -- the tag would go on behind the path, with the space
    obtain ⟨rest, hrest⟩ := List.prefix_of_prefix_length_le (List.prefix_append _ _) hprefix hle
    rw [← hrest, List.prefix_append_right_inj] at hprefix
    have noSpace : ∀ tag ∈ tags, ' ' ∉ tag.1 ++ [':'] := by decide
    cases rest with
    | nil => exact h tag htag ⟨[], by rw [← hrest]; simp⟩
    | cons c rest =>
        obtain ⟨_, heq⟩ := hprefix
        rw [List.cons_append, List.cons.injEq] at heq
        refine noSpace tag htag ?_
        rw [← hrest, heq.1]
        simp

end Cast

namespace Token

/-- A path without a double bar ends at the separator. -/
theorem splitFirst?_defaultMark {path : Text} (h : ¬ defaultMark <:+: path) (rest : Text) :
    Text.splitFirst? defaultMark (path ++ Slot.separator ++ rest) =
      some (path ++ [' '], ' ' :: rest) := by
  induction path with
  | nil => rfl
  | cons c path ih =>
      have hpath : ¬ defaultMark <:+: path := fun hoccurs =>
        h (hoccurs.trans (List.suffix_cons c path).isInfix)
      have hhere : defaultMark.isPrefixOf? (c :: (path ++ Slot.separator ++ rest)) = none := by
        cases hfound : defaultMark.isPrefixOf? (c :: (path ++ Slot.separator ++ rest)) with
        | none => rfl
        | some rest' =>
            have heq := Text.eq_append_of_isPrefixOf? hfound
            cases path with
            | nil => cases heq
            | cons c' path =>
                cases heq
                exact absurd ⟨[], path, rfl⟩ h
      rw [List.cons_append, List.cons_append, Text.splitFirst?, hhere, ih hpath]
      rfl

/-! ## The default -/

variable {d : Delimiters} {v : Json}

/-- **The default is read from the text up to the first closing delimiter, or from all that
follows.** -/
theorem readDefault?_render (closing : ∀ c ∈ d.closing.head?, Text.isBlank c = false)
    (readsBack : Json.parse? v.render = some v) {begin after rest : Text}
    (hbegin : begin <+: v.render) (whole : v.isClosed = true ∨ begin = v.render)
    (hafter : begin ++ d.closing ++ after = v.render ++ d.closing ++ rest) :
    readDefault? d.closing (' ' :: begin) after = some (v, rest) := by
  have htrim : Text.trim (' ' :: begin) = Text.trim begin := Text.trim_cons_of_isBlank begin rfl
  rcases hbegin with ⟨more, hmore⟩
  by_cases hend : more = []
  · -- the whole text of the default stands before the delimiter
    rw [hend, List.append_nil] at hmore
    subst hmore
    rw [List.append_assoc, List.append_assoc] at hafter
    rw [readDefault?, shortDefault?, htrim, (Json.trimmed_render v).trim, readsBack,
      List.append_cancel_left (List.append_cancel_left hafter)]
  · have closed : v.isClosed = true := whole.resolve_right fun h => hend (by
      rw [h] at hmore
      exact List.append_right_eq_self.1 hmore)
    obtain ⟨blanks, hblanks⟩ := (Json.trimmed_render v).trim_isPrefix ⟨more, hmore⟩
    have hshort : shortDefault? (' ' :: begin) = none := by
      rw [shortDefault?, htrim]
      refine Json.parse?_eq_none_of_render closed readsBack (blanks ++ more) ?_
        fun h => hend (List.append_eq_nil_iff.1 h).2
      rw [← List.append_assoc, hblanks, hmore]
    have hstart : Text.trimStart (' ' :: begin ++ d.closing ++ after) =
        v.render ++ (d.closing ++ rest) := by
      rw [List.cons_append, List.cons_append, hafter, List.append_assoc,
        Text.trimStart_cons_of_isBlank _ rfl, (Json.trimmed_render v).trimStart_append]
    have hclosing : Text.trimStart (d.closing ++ rest) = d.closing ++ rest := by
      obtain ⟨c, closing', heq⟩ := List.exists_cons_of_ne_nil d.closing_ne_nil
      rw [heq] at closing ⊢
      exact Text.trimStart_cons_of_not_isBlank _ (closing c rfl)
    rw [readDefault?, hshort]
    dsimp only
    rw [longDefault?, hstart, Json.readFront?_render closed readsBack]
    dsimp only
    rw [hclosing, Text.isPrefixOf?_append]
    rfl

end Token

/-! ## The slot -/

namespace Slot

variable {d : Delimiters} {s : Slot}

theorem Printable.trimmed (printable : s.Printable d) : s.path.Trimmed :=
  Text.trimmed_of_trim printable.path_ne_nil printable.trim_path

theorem guarded_isPrefix (s : Slot) : s.guarded <+: s.expression := by
  unfold guarded expression
  cases s.fallback with
  | none => exact List.prefix_refl _
  | some v =>
      dsimp only
      split
      · exact List.prefix_append _ _
      · exact List.prefix_refl _

/-- The declared type is taken from the front of what is printed of the path and the default. -/
theorem Printable.splitTag (printable : s.Printable d) (inner : Text)
    (h : inner = s.path ∨ ∃ more, inner = s.path ++ ' ' :: more) :
    Cast.splitTag (s.cast.written ++ inner) = (s.cast, inner) := by
  cases hcast : s.cast with
  | string => exact Cast.splitTag_of_tag "string".toList (by decide) inner
  | number => exact Cast.splitTag_of_tag "number".toList (by decide) inner
  | object => exact Cast.splitTag_of_tag "object".toList (by decide) inner
  | asIs =>
      have untagged := printable.untagged hcast
      show Cast.splitTag inner = _
      rcases h with rfl | ⟨more, rfl⟩
      · exact Cast.splitTag_of_untagged printable.trimmed.trimStart untagged
      · exact Cast.splitTag_of_untagged (printable.trimmed.trimStart_append _)
          (Cast.not_prefix_append_space more untagged)

/-- **The first closing delimiter stands behind the guarded part of what is printed.** -/
theorem Printable.exists_content (printable : s.Printable d) (rest : Text) :
    ∃ inner after, Text.splitFirst? d.closing (s.cast.written ++ s.expression ++ d.closing ++ rest) =
        some (s.cast.written ++ inner, after) ∧
      s.guarded <+: inner ∧ inner <+: s.expression ∧
      inner ++ d.closing ++ after = s.expression ++ d.closing ++ rest := by
  have hoccurs : s.cast.written ++ s.expression ++ d.closing ++ rest =
      (s.cast.written ++ s.expression) ++ d.closing ++ rest := rfl
  obtain ⟨⟨content, after⟩, hsplit⟩ := Text.exists_splitFirst? hoccurs
  have heq := Text.eq_append_of_splitFirst? hsplit
  have hle := Text.length_le_of_splitFirst? hsplit rfl
  have hwhole : content ++ d.closing <+: s.cast.written ++ s.expression ++ d.closing := by
    refine List.prefix_of_prefix_length_le ⟨after, heq.symm⟩ ⟨rest, rfl⟩ ?_
    simp only [List.length_append] at hle ⊢
    omega
  have hcontent : content <+: s.cast.written ++ s.expression :=
    List.prefix_of_prefix_length_le ((List.prefix_append _ _).trans hwhole)
      (List.prefix_append _ _) hle
  obtain ⟨b, hb⟩ := hwhole
  have hguard : s.cast.written ++ s.guarded <+: content :=
    List.prefix_of_prefix_length_le ((List.prefix_append_right_inj _).2 s.guarded_isPrefix)
      hcontent (printable.closing_first content b hb.symm)
  obtain ⟨inner, rfl⟩ := (List.prefix_append _ _).trans hguard
  rw [List.prefix_append_right_inj] at hguard hcontent
  refine ⟨inner, after, hsplit, hguard, hcontent, ?_⟩
  simp only [List.append_assoc] at heq
  simpa only [List.append_assoc] using (List.append_cancel_left heq).symm

theorem Printable.trimmed_expression (printable : s.Printable d) : s.expression.Trimmed := by
  unfold expression
  cases s.fallback with
  | none => exact printable.trimmed
  | some v => exact printable.trimmed.append (Json.trimmed_render v) separator

/-- What stands before the first closing delimiter goes up to a beginning of the default at least. -/
theorem exists_begin {v : Json} (hfallback : s.fallback = some v) {inner : Text}
    (hguard : s.guarded <+: inner) (hinner : inner <+: s.expression) :
    ∃ begin, inner = s.path ++ separator ++ begin ∧ begin <+: v.render ∧
      (v.isClosed = true ∨ begin = v.render) := by
  rw [expression, hfallback] at hinner
  rw [guarded, hfallback] at hguard
  dsimp only at hguard hinner
  split at hguard
  · next closed =>
    obtain ⟨begin, rfl⟩ := hguard
    exact ⟨begin, rfl, (List.prefix_append_right_inj _).1 hinner, .inl closed⟩
  · exact ⟨v.render, hinner.eq_of_length (Nat.le_antisymm hinner.length_le hguard.length_le),
      List.prefix_refl _, .inr rfl⟩

end Slot

namespace Token

variable {d : Delimiters} {s : Slot}

/-- **A printed slot is read back**, whatever follows it. -/
theorem read?_print (closing : ∀ c ∈ d.closing.head?, Text.isBlank c = false)
    (printable : s.Printable d) (rest : Text) :
    read? d (s.cast.written ++ s.expression ++ d.closing ++ rest) =
      .ok (some (s.token d, rest)) := by
  obtain ⟨inner, after, hsplit, hguard, hinner, hafter⟩ := printable.exists_content rest
  cases hfallback : s.fallback with
  | none =>
      have hpath : inner = s.path := by
        rw [Slot.guarded, hfallback] at hguard
        rw [Slot.expression, hfallback] at hinner
        exact hinner.eq_of_length (Nat.le_antisymm hinner.length_le hguard.length_le)
      subst hpath
      have hrest : after = rest := by
        rw [Slot.expression, hfallback, List.append_assoc, List.append_assoc] at hafter
        exact List.append_cancel_left (List.append_cancel_left hafter)
      have htag := printable.splitTag s.path (.inl rfl)
      simp only [read?, hsplit, htag, Text.splitFirst?_eq_none_iff.2 printable.unmarked,
        printable.trim_path, if_neg printable.path_ne_nil, hrest, Slot.token, hfallback]
      simp only [Slot.print, Slot.expression, hfallback]
  | some v =>
      obtain ⟨begin, rfl, hbegin, whole⟩ := Slot.exists_begin hfallback hguard hinner
      have hrest : begin ++ d.closing ++ after = v.render ++ d.closing ++ rest := by
        rw [Slot.expression, hfallback] at hafter
        simp only [List.append_assoc] at hafter ⊢
        exact List.append_cancel_left (List.append_cancel_left hafter)
      have htag := printable.splitTag (s.path ++ Slot.separator ++ begin)
        (.inr ⟨"|| ".toList ++ begin, by rw [List.append_assoc]; rfl⟩)
      have hdefault := readDefault?_render closing (printable.readsBack v hfallback) hbegin whole hrest
      have hpath : Text.trim (s.path ++ [' ']) = s.path :=
        printable.trimmed.trim_append (List.forall_mem_singleton.2 rfl)
      have hexpression : Text.trim (Text.before (s.path ++ Slot.separator ++ begin ++ d.closing ++ after)
          (d.closing ++ rest)) = s.expression := by
        rw [hafter, List.append_assoc, Text.before_append]
        exact (printable.trimmed_expression).trim
      simp only [read?, hsplit, htag, splitFirst?_defaultMark printable.unmarked, hpath,
        if_neg printable.path_ne_nil, hdefault, hexpression, Slot.token, hfallback,
        Text.before_append]
      rw [Slot.print, List.append_assoc d.opening]

end Token

end Stencil
