import Stencil.Json.Quoted

/-!
# Written strings are read back

The writer protects every quote and every backslash, so the first quote that nothing
protects is the closing one (`cutAtQuote_escape`), and each escape that it makes stands
for the character that it was made from (`unescape_escape`).  So a string that is
written between quotes is read back from the front of any text (`read_escape`).
-/

set_option autoImplicit false

namespace Stencil.Quoted

variable {c l : Char} {s t raw rest : Text}

/-! ## The characters of an escape -/

theorem unletter?_of_letter? (h : letter? c = some l) : unletter? l = some c := by
  unfold letter? at h
  split at h <;> cases h <;> rfl

theorem ne_u_of_letter? (h : letter? c = some l) : l ≠ 'u' := by
  unfold letter? at h
  split at h <;> cases h <;> decide

/-- A character without a letter is neither a quote nor a backslash. -/
theorem ne_of_letter?_eq_none (h : letter? c = none) : c ≠ '"' ∧ c ≠ '\\' := by
  constructor <;> rintro rfl <;> cases h

theorem hexUnit?_digits {n : Nat} (h : n < 0x20) :
    hexUnit? '0' '0' (Nat.digitChar (n / 16)) (Nat.digitChar (n % 16)) = some n := by
  revert n
  decide

theorem digit_ne_of_lt {n : Nat} (h : n < 16) :
    Nat.digitChar n ≠ '"' ∧ Nat.digitChar n ≠ '\\' := by
  revert n
  decide

/-! ## Finding the closing quote -/

theorem cutAtQuote_cons_of_ne (hquote : c ≠ '"') (hslash : c ≠ '\\') (s : Text) :
    cutAtQuote (c :: s) = (cutAtQuote s).map fun parts => (c :: parts.1, parts.2) := by
  simp [cutAtQuote, hslash]

theorem cutAtQuote_escapeChar (h : cutAtQuote t = some (raw, rest)) :
    cutAtQuote (escapeChar c ++ t) = some (escapeChar c ++ raw, rest) := by
  unfold escapeChar
  split
  · simp [cutAtQuote, h]
  · next hletter =>
    split
    · next hlt =>
      have zero : '0' ≠ '"' ∧ '0' ≠ '\\' := by decide
      have high := digit_ne_of_lt (n := c.toNat / 16) (by omega)
      have low := digit_ne_of_lt (n := c.toNat % 16) (by omega)
      simp [cutAtQuote, cutAtQuote_cons_of_ne zero.1 zero.2, cutAtQuote_cons_of_ne high.1 high.2,
        cutAtQuote_cons_of_ne low.1 low.2, h]
    · obtain ⟨hquote, hslash⟩ := ne_of_letter?_eq_none hletter
      simp [cutAtQuote_cons_of_ne hquote hslash, h]

/-- **The first quote that nothing protects is the one behind the written string.** -/
theorem cutAtQuote_escape (s rest : Text) :
    cutAtQuote (escape s ++ '"' :: rest) = some (escape s, rest) := by
  induction s with
  | nil => rfl
  | cons c s ih =>
      rw [escape, List.flatMap_cons, List.append_assoc]
      exact cutAtQuote_escapeChar ih

/-! ## Replacing the escapes -/

theorem unescape_escapeChar (c : Char) (t : Text) :
    unescape (escapeChar c ++ t) = (unescape t).map (c :: ·) := by
  unfold escapeChar
  split
  · next l hletter =>
    simp [unescape, ne_u_of_letter? hletter, unletter?_of_letter? hletter]
  · next hletter =>
    split
    · next hlt =>
      have hhigh : isHighUnit c.toNat = false := by simp [isHighUnit]; omega
      have hlow : isLowUnit c.toNat = false := by simp [isLowUnit]; omega
      simp [unescape, hexUnit?_digits hlt, hhigh, hlow]
    · next hge =>
      obtain ⟨hquote, hslash⟩ := ne_of_letter?_eq_none hletter
      simp [unescape, hquote, hslash, hge]

/-- **The escapes of a written string stand for its characters.** -/
theorem unescape_escape (s : Text) : unescape (escape s) = some s := by
  induction s with
  | nil => rfl
  | cons c s ih =>
      rw [escape, List.flatMap_cons, unescape_escapeChar]
      exact congrArg _ ih

/-- **A written string is read back from the front of any text.** -/
theorem read_escape (s rest : Text) : read (escape s ++ '"' :: rest) = some (s, rest) := by
  simp [read, cutAtQuote_escape, unescape_escape]

end Stencil.Quoted
