import Stencil.Path.Reader
import Stencil.Proofs.Steps
import Stencil.Proofs.Text.Blank
import Stencil.Proofs.Text.Search

/-!
# How the text of a path is read

A path is read step by step, and a step is a key behind a point or a bracket.  Each of
the two has one equation (`readSteps_point`, `readSteps_bracket`), and `Spells` puts them
together: the text spells the steps if it is these steps written one after the other.
The reader answers with steps only if the text spells them (`spells_of_readSteps`), so
what holds of all paths that can be read is proved by induction on the spelling.

What has been read does not depend on what follows.  A text that spells steps still
does so in front of any text that starts with a point or a bracket, and reading goes on
there (`readSteps_append`, `ofText_append`).
-/

set_option autoImplicit false

namespace Stencil

variable {s more rest k : Text} {segment : Segment} {p : Path} {q : Char}

/-! ## Indexes -/

/-- Digits alone denote the number that they write, if it is an index. -/
theorem indexOfText?_of_digits (hne : s ≠ []) (digits : ∀ c ∈ s, c.isDigit = true) :
    indexOfText? s = if Nat.ofDigitChars 10 s 0 < indexBound then some (Nat.ofDigitChars 10 s 0)
      else none := by
  unfold indexOfText?
  split
  · exact absurd (digits '+' List.mem_cons_self) (by decide)
  · simp [hne, List.all_eq_true.2 digits]

theorem lt_of_indexOfText? {i : Nat} (h : indexOfText? s = some i) : i < indexBound := by
  unfold indexOfText? at h
  rw [Option.ite_none_right_eq_some] at h
  obtain ⟨⟨-, -, hlt⟩, heq⟩ := h
  cases heq
  exact hlt

namespace Path

/-! ## The two kinds of step -/

/-- Whatever follows a key without quotes starts with a point or a bracket. -/
def Ended (rest : Text) : Prop :=
  ∀ c ∈ rest.head?, isBare c = false

theorem Ended.append (h : Ended rest) (hmore : Ended more) : Ended (rest ++ more) := by
  cases rest with
  | nil => exact hmore
  | cons c rest => exact h

theorem ended_bracket (s : Text) : Ended ('[' :: s) := by
  intro c hc
  cases hc
  rfl

theorem ended_point (s : Text) : Ended ('.' :: s) := by
  intro c hc
  cases hc
  rfl

theorem ended_dropWhile (s : Text) : Ended (s.dropWhile isBare) := by
  intro c hc
  have h := List.head?_dropWhile_not isBare s
  rw [Option.mem_def.1 hc] at h
  simpa using h

theorem readSteps_nil : readSteps [] = .ok [] := by
  rw [readSteps]

/-- A key behind a point goes as far as there are characters of keys. -/
theorem readSteps_point (hk : k ≠ []) (bare : ∀ c ∈ k, isBare c = true) (ended : Ended rest) :
    readSteps ('.' :: (k ++ rest)) = (readSteps rest).map (.key (String.ofList k) :: ·) := by
  have hrest : rest.takeWhile isBare = [] ∧ rest.dropWhile isBare = rest := by
    cases rest with
    | nil => exact ⟨rfl, rfl⟩
    | cons c rest =>
        have hc := ended c rfl
        exact ⟨List.takeWhile_cons_of_neg (by simp [hc]),
          List.dropWhile_cons_of_neg (by simp [hc])⟩
  obtain ⟨c, k, rfl⟩ := List.exists_cons_of_ne_nil hk
  rw [readSteps, List.takeWhile_append_of_pos bare, List.dropWhile_append_of_pos bare, hrest.1,
    hrest.2, List.append_nil]
  rfl

/-- A bracket is read first, and what follows it then. -/
theorem readSteps_bracket (s : Text) :
    readSteps ('[' :: s) = (readBracket s).bind fun step =>
      (readSteps step.2).map (step.1 :: ·) := by
  rw [readSteps]
  split
  · next fault h => rw [h]; rfl
  · next segment rest h => rw [h]; rfl

/-! ## What a bracket holds -/

theorem ne_bracket_of_isQuote (h : isQuote q = true) : q ≠ ']' := by
  rintro rfl
  cases h

theorem not_isBlank_of_isQuote (h : isQuote q = true) : Text.isBlank q = false := by
  simp only [isQuote, Bool.or_eq_true, beq_iff_eq] at h
  rcases h with rfl | rfl <;> decide

theorem not_isQuote_of_isDigit (h : q.isDigit = true) : isQuote q = false := by
  by_contra hq
  simp only [isQuote, Bool.not_eq_false, Bool.or_eq_true, beq_iff_eq] at hq
  rcases hq with rfl | rfl <;> cases h

theorem blank_nil : ∀ c ∈ ([] : Text), Text.isBlank c = true := nofun

/-- Behind blank characters a quote starts a quoted key. -/
theorem readBracket_quoted {w : Text} (blank : ∀ c ∈ w, Text.isBlank c = true)
    (hq : isQuote q = true) (s : Text) : readBracket (w ++ q :: s) = readQuoted q s := by
  rw [readBracket, Text.trimStart_append_of_blank blank,
    Text.trimStart_cons_of_not_isBlank _ (not_isBlank_of_isQuote hq)]
  exact if_pos hq

theorem readIndex_digits {w digits : Text} (blank : ∀ c ∈ w, Text.isBlank c = true)
    (hne : digits ≠ []) (hdigits : ∀ c ∈ digits, c.isDigit = true) (rest : Text) :
    readIndex (digits ++ w ++ ']' :: rest) =
      match indexOfText? digits with
      | some i => .ok (.index i, rest)
      | none => .error .badBracket := by
  have trimmed : digits.Trimmed :=
    Text.trimmed_of_forall hne fun c hc => Text.not_isBlank_of_isDigit (hdigits c hc)
  have unclosed : ']' ∉ digits ++ w := by
    intro hc
    rcases List.mem_append.1 hc with hc | hc
    · exact absurd (hdigits _ hc) (by decide)
    · exact absurd (blank _ hc) (by decide)
  have hclose : Text.splitFirst? [']'] (digits ++ w ++ ']' :: rest) = some (digits ++ w, rest) := by
    rw [Text.splitFirst?_append_of_not_mem unclosed]
    simp [Text.splitFirst?, List.isPrefixOf?]
  rw [readIndex, hclose]
  dsimp only
  cases hindex : indexOfText? digits <;> simp only [trimmed.trim_append blank, hindex]

/-- Digits between blank characters are read as an index. -/
theorem readBracket_digits {w₁ w₂ digits : Text} (blank₁ : ∀ c ∈ w₁, Text.isBlank c = true)
    (blank₂ : ∀ c ∈ w₂, Text.isBlank c = true) (hne : digits ≠ [])
    (hdigits : ∀ c ∈ digits, c.isDigit = true) (rest : Text) :
    readBracket (w₁ ++ (digits ++ w₂ ++ ']' :: rest)) =
      match indexOfText? digits with
      | some i => .ok (.index i, rest)
      | none => .error .badBracket := by
  rw [← readIndex_digits blank₂ hne hdigits rest]
  obtain ⟨c, digits, rfl⟩ := List.exists_cons_of_ne_nil hne
  have hc := hdigits c List.mem_cons_self
  have hstart : Text.trimStart (w₁ ++ (c :: digits ++ w₂ ++ ']' :: rest)) =
      c :: (digits ++ w₂ ++ ']' :: rest) := by
    rw [Text.trimStart_append_of_blank blank₁]
    exact Text.trimStart_cons_of_not_isBlank _ (Text.not_isBlank_of_isDigit hc)
  rw [readBracket, hstart]
  simp only [not_isQuote_of_isDigit hc, Bool.false_eq_true, if_false, List.cons_append]

/-- The quote is in the text, with a closing bracket behind it. -/
def ClosesIn (q : Char) (k : Text) : Prop :=
  [q, ']'] <:+: k

instance (q : Char) (k : Text) : Decidable (ClosesIn q k) :=
  decidable_of_iff (¬ Text.splitFirst? [q, ']'] k = none)
    ((not_congr Text.splitFirst?_eq_none_iff).trans Decidable.not_not)

/-- A quote that does not close in a key first closes behind it. -/
theorem length_le_of_not_closesIn (hq : q ≠ ']') (h : ¬ ClosesIn q k) {a b : Text}
    (heq : k ++ [q, ']'] = a ++ [q, ']'] ++ b) : k.length ≤ a.length := by
  rw [List.append_assoc] at heq
  rcases List.append_eq_append_iff.1 heq with ⟨more, rfl, -⟩ | ⟨more, rfl, hmore⟩
  · exact (List.prefix_append k more).length_le
  · -- the quote and the bracket would lie in what the key has more
    rcases more with _ | ⟨x, _ | ⟨y, more⟩⟩
    · simp
    · cases hmore
      exact absurd rfl hq
    · cases hmore
      exact absurd ⟨a, more, by simp⟩ h

theorem readQuoted_key (hq : isQuote q = true) (h : ¬ ClosesIn q k) (rest : Text) :
    readQuoted q (k ++ [q, ']'] ++ rest) = .ok (.key (String.ofList k), rest) := by
  have first : ∀ a b, k ++ [q, ']'] = a ++ [q, ']'] ++ b → k.length ≤ a.length := fun _ _ =>
    length_le_of_not_closesIn (ne_bracket_of_isQuote hq) h
  rw [readQuoted, Text.splitFirst?_append first]

/-! ## What has been read does not depend on what follows -/

theorem readIndex_append (h : readIndex s = .ok (segment, rest)) (more : Text) :
    readIndex (s ++ more) = .ok (segment, rest ++ more) := by
  unfold readIndex at h
  split at h
  · cases h
  · next inner rest' hsplit =>
    split at h
    · next i hi =>
      cases h
      simp only [readIndex, Text.splitFirst?_append_of_some hsplit, hi]
    · cases h

theorem readQuoted_append (h : readQuoted q s = .ok (segment, rest)) (more : Text) :
    readQuoted q (s ++ more) = .ok (segment, rest ++ more) := by
  unfold readQuoted at h
  split at h
  · cases h
  · next key rest' hsplit =>
    cases h
    simp only [readQuoted, Text.splitFirst?_append_of_some hsplit]

theorem readBracket_append (h : readBracket s = .ok (segment, rest)) (more : Text) :
    readBracket (s ++ more) = .ok (segment, rest ++ more) := by
  unfold readBracket at h
  split at h
  · cases h
  · next c tail hs =>
    rw [readBracket, Text.trimStart_append_of_cons hs]
    dsimp only
    split at h
    · next hc => rw [if_pos hc]; exact readQuoted_append h more
    · next hc => rw [if_neg hc]; exact readIndex_append h more

/-! ## Texts that spell steps -/

/-- The text is the steps, written one after the other. -/
inductive Spells : Text → Path → Prop where
  /-- No text, no steps. -/
  | nil : Spells [] []
  /-- A point, a key without quotes, and the other steps. -/
  | point {k rest : Text} {p : Path} (nonempty : k ≠ []) (bare : ∀ c ∈ k, isBare c = true)
      (ended : Ended rest) (later : Spells rest p) :
      Spells ('.' :: (k ++ rest)) (.key (String.ofList k) :: p)
  /-- A step in brackets, and the other steps. -/
  | bracket {s rest : Text} {segment : Segment} {p : Path}
      (read : readBracket s = .ok (segment, rest)) (later : Spells rest p) :
      Spells ('[' :: s) (segment :: p)

/-- **A text that was read spells what it was read as.** -/
theorem spells_of_readSteps (h : readSteps s = .ok p) : Spells s p := by
  fun_induction readSteps s generalizing p with
  | case1 =>
      cases h
      exact .nil
  | case2 s empty => cases h
  | case3 s nonempty ih =>
      obtain ⟨p', hp', heq⟩ := bind_eq_ok_iff.1 h
      cases heq
      have bare : ∀ c ∈ s.takeWhile isBare, isBare c = true := List.all_eq_true.1 List.all_takeWhile
      have hspells := Spells.point nonempty bare (ended_dropWhile s) (ih hp')
      rwa [List.takeWhile_append_dropWhile] at hspells
  | case4 s fault hread => cases h
  | case5 s segment rest hread ih =>
      obtain ⟨p', hp', heq⟩ := bind_eq_ok_iff.1 h
      cases heq
      exact .bracket hread (ih hp')
  | case6 => cases h

theorem map_append_cons (segment : Segment) (p : Path) (x : Except PathFault Path) :
    (x.map (p ++ ·)).map (segment :: ·) = x.map (segment :: p ++ ·) := by
  cases x <;> rfl

/-- **Behind a text that spells steps reading goes on as if it started there.** -/
theorem readSteps_append (h : Spells s p) (ended : Ended more) :
    readSteps (s ++ more) = (readSteps more).map (p ++ ·) := by
  induction h with
  | nil =>
      rw [List.nil_append]
      cases readSteps more <;> rfl
  | point nonempty bare hended later ih =>
      rw [List.cons_append, List.append_assoc,
        readSteps_point nonempty bare (hended.append ended), ih, map_append_cons]
  | bracket read later ih =>
      rw [List.cons_append, readSteps_bracket, readBracket_append read more]
      show (readSteps _).map _ = _
      rw [ih, map_append_cons]

/-! ## Whole paths -/

theorem ofText_cons_of_ne {c : Char} (h : c ≠ '[') (s : Text) :
    ofText (c :: s) = readSteps ('.' :: c :: s) := by
  unfold ofText
  split
  · next hnil => cases hnil
  · next hcons => cases hcons; exact absurd rfl h
  · rfl

/-- The text of a path spells its steps, once the point is put in front of a key that comes first. -/
theorem exists_spells_of_ofText (h : ofText s = .ok p) : ∃ c s', Spells (c :: s') p := by
  cases s with
  | nil => cases h
  | cons c s =>
      by_cases hc : c = '['
      · subst hc
        exact ⟨_, _, spells_of_readSteps h⟩
      · rw [ofText_cons_of_ne hc] at h
        exact ⟨_, _, spells_of_readSteps h⟩

theorem ofText_ne_nil (s : Text) : ofText s ≠ .ok [] := by
  intro h
  obtain ⟨c, s', hspells⟩ := exists_spells_of_ofText h
  cases hspells

/-- **Behind the text of a path reading goes on as if it started there.** -/
theorem ofText_append (h : ofText s = .ok p) (ended : Ended more) :
    ofText (s ++ more) = (readSteps more).map (p ++ ·) := by
  cases s with
  | nil => cases h
  | cons c s =>
      by_cases hc : c = '['
      · subst hc
        exact readSteps_append (spells_of_readSteps h) ended
      · rw [ofText_cons_of_ne hc] at h
        rw [List.cons_append, ofText_cons_of_ne hc]
        exact readSteps_append (spells_of_readSteps h) ended

end Path

end Stencil
