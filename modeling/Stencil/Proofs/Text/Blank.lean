import Mathlib.Data.List.TakeWhile
import Stencil.Text.Blank

/-!
# Trimmed texts

A text is trimmed if it starts and ends with a character that is not blank.  These
are the texts, besides the empty one, that trimming leaves alone
(`Trimmed.trim`, `trimmed_of_trim`), and whatever stands between two of them makes a
trimmed text.
-/

set_option autoImplicit false

namespace Stencil.Text

/-- The text starts and ends with a character that is not blank. -/
structure Trimmed (s : Text) : Prop where
  first : ∃ c s', s = c :: s' ∧ isBlank c = false
  last : ∃ s' c, s = s' ++ [c] ∧ isBlank c = false

theorem Trimmed.trimStart_append {s : Text} (h : s.Trimmed) (more : Text) :
    trimStart (s ++ more) = s ++ more := by
  obtain ⟨c, s', rfl, hc⟩ := h.first
  exact trimStart_cons_of_not_isBlank _ hc

theorem Trimmed.trimStart {s : Text} (h : s.Trimmed) : Text.trimStart s = s := by
  simpa using h.trimStart_append []

theorem trimEnd_concat (s : Text) (c : Char) :
    trimEnd (s ++ [c]) = if isBlank c = true then trimEnd s else s ++ [c] := by
  rw [trimEnd, List.reverse_append, List.reverse_singleton, List.singleton_append,
    List.dropWhile_cons]
  split
  · rfl
  · simp

theorem Trimmed.trimEnd {s : Text} (h : s.Trimmed) : Text.trimEnd s = s := by
  obtain ⟨s', c, rfl, hc⟩ := h.last
  rw [trimEnd_concat, hc]
  rfl

/-- A trimmed text stays as it is. -/
theorem Trimmed.trim {s : Text} (h : s.Trimmed) : Text.trim s = s := by
  rw [Text.trim, h.trimStart, h.trimEnd]

theorem trim_cons_of_isBlank {c : Char} (s : Text) (hc : isBlank c = true) :
    trim (c :: s) = trim s := by
  rw [trim, trimStart_cons_of_isBlank s hc, trim]

/-- Of a beginning of a trimmed text only the end is trimmed off. -/
theorem Trimmed.trim_isPrefix {s begin : Text} (h : s.Trimmed) (hbegin : begin <+: s) :
    Text.trim begin <+: begin := by
  cases begin with
  | nil => exact List.prefix_refl _
  | cons c begin =>
      obtain ⟨c', s', rfl, hc'⟩ := h.first
      obtain ⟨_, heq⟩ := hbegin
      rw [List.cons_append, List.cons.injEq] at heq
      rw [Text.trim, trimStart_cons_of_not_isBlank begin (heq.1 ▸ hc')]
      exact trimEnd_isPrefix _

theorem Trimmed.append {s t : Text} (hs : s.Trimmed) (ht : t.Trimmed) (between : Text) :
    (s ++ between ++ t).Trimmed := by
  obtain ⟨c, s', rfl, hc⟩ := hs.first
  obtain ⟨t', c', rfl, hc'⟩ := ht.last
  exact ⟨⟨c, _, rfl, hc⟩, ⟨_, c', (List.append_assoc _ _ _).symm, hc'⟩⟩

/-- A text that is not empty and that trimming leaves alone is trimmed. -/
theorem trimmed_of_trim {s : Text} (hne : s ≠ []) (h : trim s = s) : s.Trimmed := by
  have hle := (trimEnd_isPrefix (trimStart s)).length_le
  rw [show trimEnd (trimStart s) = s from h] at hle
  have hstart : trimStart s = s := (trimStart_isSuffix s).eq_of_length_le hle
  refine ⟨?_, ?_⟩
  · obtain ⟨c, s', rfl⟩ := List.exists_cons_of_ne_nil hne
    refine ⟨c, s', rfl, ?_⟩
    by_cases hc : isBlank c = true
    · rw [trimStart_cons_of_isBlank s' hc] at hstart
      have hle := length_trimStart_le s'
      rw [hstart, List.length_cons] at hle
      omega
    · simpa using hc
  · have hend : trimEnd s = s := by rwa [trim, hstart] at h
    obtain ⟨s', c, rfl⟩ := List.eq_nil_or_concat s |>.resolve_left hne
    refine ⟨s', c, List.concat_eq_append, ?_⟩
    by_cases hc : isBlank c = true
    · rw [List.concat_eq_append, trimEnd_concat, if_pos hc] at hend
      have hle := (trimEnd_isPrefix s').length_le
      rw [hend, List.length_append, List.length_singleton] at hle
      omega
    · simpa using hc

/-- A text without blank characters is trimmed. -/
theorem trimmed_of_forall {s : Text} (hne : s ≠ []) (h : ∀ c ∈ s, isBlank c = false) :
    s.Trimmed := by
  refine ⟨?_, ?_⟩
  · obtain ⟨c, s', rfl⟩ := List.exists_cons_of_ne_nil hne
    exact ⟨c, s', rfl, h c List.mem_cons_self⟩
  · exact ⟨_, _, (List.dropLast_concat_getLast hne).symm, h _ (List.getLast_mem hne)⟩

theorem not_isBlank_of_isDigit {c : Char} (h : c.isDigit = true) : isBlank c = false := by
  have hc : 48 ≤ c.toNat ∧ c.toNat ≤ 57 := by
    simp only [Char.isDigit, Bool.and_eq_true, decide_eq_true_eq, UInt32.le_iff_toNat_le] at h
    exact h
  simp only [isBlank, List.any_eq_false, Bool.and_eq_true, decide_eq_true_eq]
  intro r hr hle
  have hle' : r.1.toNat ≤ c.toNat ∧ c.toNat ≤ r.2.toNat := hle
  have hranges : ∀ r ∈ blankRanges, r.2.toNat < 48 ∨ 57 < r.1.toNat := by decide
  rcases hranges r hr with hlow | hhigh
  · omega
  · omega

/-! ## Blank characters around a text -/

theorem trimStart_append_of_cons {s tail : Text} {c : Char} (h : trimStart s = c :: tail)
    (more : Text) : trimStart (s ++ more) = c :: (tail ++ more) := by
  rw [trimStart] at h
  rw [trimStart, List.dropWhile_append, h]
  rfl

theorem trimStart_append_of_blank {w : Text} (blank : ∀ c ∈ w, isBlank c = true) (s : Text) :
    trimStart (w ++ s) = trimStart s :=
  List.dropWhile_append_of_pos blank

theorem trimEnd_append_of_blank {w : Text} (blank : ∀ c ∈ w, isBlank c = true) (s : Text) :
    trimEnd (s ++ w) = trimEnd s := by
  rw [trimEnd, List.reverse_append, List.dropWhile_append_of_pos fun c hc =>
    blank c (List.mem_reverse.1 hc)]
  rfl

/-- Blank characters behind a trimmed text are trimmed off. -/
theorem Trimmed.trim_append {s w : Text} (h : s.Trimmed) (blank : ∀ c ∈ w, isBlank c = true) :
    Text.trim (s ++ w) = s := by
  rw [Text.trim, h.trimStart_append, trimEnd_append_of_blank blank, h.trimEnd]

/-! ## Blank characters in front of a text that is cut off -/

theorem append_isPrefix {s taken rest left : Text} (hs : s = taken ++ rest) (h : left <+: rest) :
    taken ++ left <+: s :=
  hs ▸ (List.prefix_append_right_inj taken).2 h

/-- What is dropped in front of a text is dropped in front of every beginning of it. -/
theorem dropWhile_takeWhile_append {p : Char → Bool} {s left : Text} (h : left <+: s.dropWhile p) :
    (s.takeWhile p ++ left).dropWhile p = left := by
  rw [List.dropWhile_append_of_pos fun c hc => List.mem_takeWhile_imp hc]
  cases left with
  | nil => rfl
  | cons c left =>
      obtain ⟨more, hmore⟩ := h
      have hhead := List.head?_dropWhile_not p s
      rw [← hmore] at hhead
      exact List.dropWhile_cons_of_neg (by simpa using hhead)

/-- What stands in front of a trimmed text is blank, also if the trimmed text is cut off. -/
theorem exists_trimStart (s : Text) :
    ∃ blank, s = blank ++ trimStart s ∧ (∀ c ∈ blank, isBlank c = true) ∧
      ∀ left, left <+: trimStart s → trimStart (blank ++ left) = left :=
  ⟨s.takeWhile isBlank, List.takeWhile_append_dropWhile.symm, fun _ hc => List.mem_takeWhile_imp hc,
    fun _ => dropWhile_takeWhile_append⟩

/-! ## Blank characters behind a text -/

/-- What stands behind a text that is trimmed at its end is blank. -/
theorem exists_trimEnd (s : Text) : ∃ w, s = trimEnd s ++ w ∧ ∀ c ∈ w, isBlank c = true := by
  refine ⟨(s.reverse.takeWhile isBlank).reverse, ?_, fun c hc => ?_⟩
  · rw [trimEnd, ← List.reverse_append, List.takeWhile_append_dropWhile, List.reverse_reverse]
  · exact List.mem_takeWhile_imp (List.mem_reverse.1 hc)

/-- What is trimmed off a text is blank. -/
theorem exists_trim (s : Text) :
    ∃ w w', s = w ++ trim s ++ w' ∧ (∀ c ∈ w, isBlank c = true) ∧ ∀ c ∈ w', isBlank c = true := by
  obtain ⟨w, hw, blank, -⟩ := exists_trimStart s
  obtain ⟨w', hw', blank'⟩ := exists_trimEnd (trimStart s)
  refine ⟨w, w', ?_, blank, blank'⟩
  rw [trim, List.append_assoc, ← hw', ← hw]

/-! ## What trimming leaves -/

theorem exists_cons_of_trimStart {s : Text} (h : trimStart s ≠ []) :
    ∃ c tail, trimStart s = c :: tail ∧ isBlank c = false := by
  obtain ⟨c, tail, hs⟩ := List.exists_cons_of_ne_nil h
  have hc := List.head?_dropWhile_not isBlank s
  rw [show s.dropWhile isBlank = c :: tail from hs] at hc
  exact ⟨c, tail, hs, hc⟩

theorem trimEnd_append_of_ne_nil {t : Text} (s : Text) (h : trimEnd t ≠ []) :
    trimEnd (s ++ t) = s ++ trimEnd t := by
  have hempty : ¬ (t.reverse.dropWhile isBlank).isEmpty = true := fun hempty =>
    h (by rw [trimEnd, List.isEmpty_iff.1 hempty, List.reverse_nil])
  rw [trimEnd, List.reverse_append, List.dropWhile_append, if_neg hempty, List.reverse_append,
    List.reverse_reverse, trimEnd]

theorem trimEnd_cons_of_not_isBlank {c : Char} (s : Text) (h : isBlank c = false) :
    trimEnd (c :: s) = c :: trimEnd s := by
  by_cases hs : trimEnd s = []
  · have hblank : ∀ x ∈ s, isBlank x = true := by
      rw [trimEnd, List.reverse_eq_nil_iff, List.dropWhile_eq_nil_iff] at hs
      exact fun x hx => hs x (List.mem_reverse.2 hx)
    have hsingle : trimEnd [c] = [c] := by
      have hc := trimEnd_concat [] c
      rwa [h] at hc
    rw [hs, ← hsingle]
    exact trimEnd_append_of_blank hblank [c]
  · exact trimEnd_append_of_ne_nil [c] hs

/-- What trimming leaves of a text starts and ends with a character that is not blank. -/
theorem trimmed_trim {s : Text} (h : trim s ≠ []) : (trim s).Trimmed := by
  have hstart : trimStart s ≠ [] := fun hnil => h (by rw [trim, hnil]; rfl)
  obtain ⟨c, tail, hs, hc⟩ := exists_cons_of_trimStart hstart
  refine ⟨⟨c, trimEnd tail, by rw [trim, hs, trimEnd_cons_of_not_isBlank _ hc], hc⟩, ?_⟩
  obtain ⟨x, rest, hx, hblank⟩ := exists_cons_of_trimStart (s := (trimStart s).reverse) fun hnil =>
    h (by rw [trim, trimEnd, show (trimStart s).reverse.dropWhile isBlank = [] from hnil]; rfl)
  refine ⟨rest.reverse, x, ?_, hblank⟩
  rw [trim, trimEnd, show (trimStart s).reverse.dropWhile isBlank = x :: rest from hx,
    List.reverse_cons]

/-- Trimming again changes nothing. -/
theorem trim_trim (s : Text) : trim (trim s) = trim s := by
  by_cases h : trim s = []
  · rw [h]
    rfl
  · exact (trimmed_trim h).trim

theorem trim_isInfix (s : Text) : trim s <:+: s :=
  (trimEnd_isPrefix _).isInfix.trans (trimStart_isSuffix s).isInfix

/-- A text that is not all blank is trimmed in the same way in front of a character that is not
blank. -/
theorem trim_isPrefix_trim {s : Text} {c : Char} (h : trim s ≠ []) (hc : isBlank c = false)
    (more : Text) : trim s <+: trim (s ++ c :: more) := by
  have hstart : trimStart s ≠ [] := fun hnil => h (by rw [trim, hnil]; rfl)
  obtain ⟨x, tail, hs, -⟩ := exists_cons_of_trimStart hstart
  have hmore : trimEnd (c :: more) ≠ [] := by
    rw [trimEnd_cons_of_not_isBlank more hc]
    exact List.cons_ne_nil _ _
  have hwhole : trim (s ++ c :: more) = trimStart s ++ trimEnd (c :: more) := by
    rw [trim, trimStart_append_of_cons hs, ← List.cons_append, ← hs, trimEnd_append_of_ne_nil _ hmore]
  rw [hwhole]
  exact List.prefix_append_of_prefix (trimEnd_isPrefix _)

end Stencil.Text
