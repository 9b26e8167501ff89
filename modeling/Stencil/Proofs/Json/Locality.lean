import Stencil.Json.Reader

/-!
# What a reader takes does not depend on what follows

A reader is steady if text appended at the end changes nothing but what is left.
Strings and sequences are read by steady readers, since a mark closes them.  A word
or a number has no such mark: it is read the same way only if something was left
already, and then the reader is called local.  Inside a sequence something is
always left, so the reader of a sequence is steady as soon as that of its elements
is local.

So values are read by local readers at every depth (`local_readValue`), and a string,
an array or an object is read whatever follows it, even if nothing was left behind it
before (`readValue_append`).
-/

set_option autoImplicit false

namespace Stencil

/-- Appended text changes nothing but what the reader leaves. -/
def Json.Steady {α : Type} (r : Json.Reader α) : Prop :=
  ∀ {s : Text} {x : α} {rest : Text} (more : Text), r s = some (x, rest) →
    r (s ++ more) = some (x, rest ++ more)

/-- The reader takes nothing from nothing, and appended text changes nothing but what it leaves, if
it leaves something. -/
structure Json.Local {α : Type} (r : Json.Reader α) : Prop where
  nil : r [] = none
  append : ∀ {s : Text} {x : α} {rest : Text} (more : Text), r s = some (x, rest) → rest ≠ [] →
    r (s ++ more) = some (x, rest ++ more)

/-- Nothing behind the closing quote is looked at. -/
theorem Quoted.exists_cutAtQuote {s raw rest : Text} (h : cutAtQuote s = some (raw, rest)) :
    ∃ taken, s = taken ++ rest ∧ ∀ left, cutAtQuote (taken ++ left) = some (raw, left) := by
  fun_induction cutAtQuote s generalizing raw with
  | case1 => cases h
  | case2 rest' =>
      cases h
      exact ⟨['"'], rfl, fun _ => rfl⟩
  | case3 c s ih =>
      obtain ⟨parts, hparts, heq⟩ := Option.map_eq_some_iff.1 h
      cases heq
      obtain ⟨taken, rfl, hcut⟩ := ih hparts
      refine ⟨'\\' :: c :: taken, rfl, fun left => ?_⟩
      simp only [List.cons_append, cutAtQuote, hcut, Option.map_some]
  | case4 c s hquote hescape ih =>
      obtain ⟨parts, hparts, heq⟩ := Option.map_eq_some_iff.1 h
      cases heq
      obtain ⟨taken, rfl, hcut⟩ := ih hparts
      refine ⟨c :: taken, rfl, fun left => ?_⟩
      rw [List.cons_append, cutAtQuote.eq_4 _ _ hquote, hcut, Option.map_some]
      intro c' s' hc _
      cases taken with
      | nil => cases hcut []
      | cons c'' taken => exact hescape c'' (taken ++ parts.2) hc rfl

theorem Quoted.cutAtQuote_append {s raw rest : Text} (h : cutAtQuote s = some (raw, rest))
    (more : Text) : cutAtQuote (s ++ more) = some (raw, rest ++ more) := by
  obtain ⟨taken, rfl, hcut⟩ := exists_cutAtQuote h
  rw [List.append_assoc]
  exact hcut (rest ++ more)

namespace Json

variable {α : Type}

theorem steady_readString : Steady readString := by
  intro s x rest more h
  obtain ⟨parts, hparts, heq⟩ := Option.map_eq_some_iff.1 h
  cases heq
  simp only [Quoted.read, Option.bind_eq_bind, Option.bind_eq_some_iff] at hparts
  obtain ⟨⟨raw, rest⟩, hcut, text, htext, heq⟩ := hparts
  cases heq
  dsimp only at htext
  simp [readString, Quoted.read, Quoted.cutAtQuote_append hcut, htext]

/-! ## Scalars -/

theorem readWord_eq_some {s rest : Text} {v : Json} (h : readWord s = some (v, rest)) :
    ∃ word, (word, v) ∈ words ∧ s = word ++ rest := by
  obtain ⟨word, hword, hmatch⟩ := List.exists_of_findSome?_eq_some h
  obtain ⟨rest', hrest, heq⟩ := Option.map_eq_some_iff.1 hmatch
  cases heq
  exact ⟨word.1, hword, Text.eq_append_of_isPrefixOf? hrest⟩

theorem readWord_append {word : Text} {v : Json} (h : (word, v) ∈ words) (rest : Text) :
    readWord (word ++ rest) = some (v, rest) := by
  simp only [words, List.mem_cons, List.not_mem_nil, or_false, Prod.mk.injEq] at h
  rcases h with ⟨rfl, rfl⟩ | ⟨rfl, rfl⟩ | ⟨rfl, rfl⟩ <;> rfl

/-- No word starts with a character of a number. -/
theorem readWord_eq_none {s : Text} {c : Char} (hc : isNumberChar c = true) :
    readWord (c :: s) = none := by
  cases h : readWord (c :: s) with
  | none => rfl
  | some parts =>
      obtain ⟨word, hword, hs⟩ := readWord_eq_some h
      simp only [words, List.mem_cons, List.not_mem_nil, or_false, Prod.mk.injEq] at hword
      rcases hword with ⟨rfl, -⟩ | ⟨rfl, -⟩ | ⟨rfl, -⟩ <;> cases hs <;> cases hc

theorem steady_readWord : Steady readWord := by
  intro s v rest more h
  obtain ⟨word, hword, rfl⟩ := readWord_eq_some h
  rw [List.append_assoc]
  exact readWord_append hword (rest ++ more)

/-- A number starts with a character of numbers. -/
theorem exists_cons_of_readNumber {s rest : Text} {v : Json} (h : readNumber s = some (v, rest)) :
    ∃ c s', s = c :: s' ∧ isNumberChar c = true := by
  obtain ⟨n, hn, -⟩ := Option.map_eq_some_iff.1 h
  cases s with
  | nil => cases hn
  | cons c s =>
      cases hc : isNumberChar c with
      | true => exact ⟨c, s, rfl, hc⟩
      | false => rw [List.takeWhile_cons, hc] at hn; cases hn

theorem readNumber_append {s rest : Text} {v : Json} (more : Text)
    (h : readNumber s = some (v, rest)) (hrest : rest ≠ []) :
    readNumber (s ++ more) = some (v, rest ++ more) := by
  obtain ⟨n, hn, heq⟩ := Option.map_eq_some_iff.1 h
  cases heq
  have htake : (s.takeWhile isNumberChar).length ≠ s.length := fun hlength => by
    have hsplit := congrArg List.length (List.takeWhile_append_dropWhile (p := isNumberChar) (l := s))
    rw [List.length_append, hlength] at hsplit
    exact hrest (List.eq_nil_of_length_eq_zero (by omega))
  have hdrop : (s.dropWhile isNumberChar).isEmpty ≠ true := fun hempty =>
    hrest (List.isEmpty_iff.1 hempty)
  rw [readNumber, List.takeWhile_append, if_neg htake, List.dropWhile_append, if_neg hdrop, hn]
  rfl

theorem readScalar_of_ne {c : Char} (h : c ≠ '"') (s : Text) :
    readScalar (c :: s) = (readWord (c :: s)).or (readNumber (c :: s)) := by
  rw [readScalar.eq_2 _ (fun _ hs => h (List.cons.inj hs).1)]
  cases readWord (c :: s) <;> rfl

theorem local_readScalar : Local readScalar := by
  refine ⟨rfl, fun {s v rest} more h hrest => ?_⟩
  cases s with
  | nil => cases h
  | cons c s =>
      by_cases hc : c = '"'
      · subst hc
        obtain ⟨parts, hparts, heq⟩ := Option.map_eq_some_iff.1 h
        cases heq
        rw [List.cons_append, readScalar, steady_readString more hparts]
        rfl
      · rw [List.cons_append, readScalar_of_ne hc, ← List.cons_append]
        rw [readScalar_of_ne hc] at h
        rcases Option.or_eq_some_iff.1 h with hword | ⟨-, hnumber⟩
        · rw [steady_readWord more hword]
          rfl
        · obtain ⟨c', s', heq, hchar⟩ := exists_cons_of_readNumber hnumber
          cases heq
          rw [readNumber_append more hnumber hrest, List.cons_append, readWord_eq_none hchar]
          rfl

/-! ## Sequences -/

theorem skipSpace_append {s rest : Text} {c : Char} (h : skipSpace s = c :: rest) (more : Text) :
    skipSpace (s ++ more) = c :: (rest ++ more) := by
  rw [skipSpace, List.dropWhile_append, show s.dropWhile Char.isWhitespace = c :: rest from h]
  rfl

theorem readMore_nil (element : Reader α) (close : Char) (rounds : Nat) :
    readMore element close rounds [] = none := by
  cases rounds <;> rfl

/-- An element that is read behind space is read there whatever is appended. -/
theorem element_append {element : Reader α} (he : Local element) {s rest : Text} {x : α}
    (h : element (skipSpace s) = some (x, rest)) (hrest : rest ≠ []) (more : Text) :
    element (skipSpace (s ++ more)) = some (x, rest ++ more) := by
  cases hs : skipSpace s with
  | nil => rw [hs, he.nil] at h; cases h
  | cons c s' =>
      rw [skipSpace_append hs]
      rw [hs] at h
      exact he.append more h hrest

/-- More rounds change nothing, and neither does appended text. -/
theorem readMore_append {element : Reader α} {close : Char} (he : Local element)
    {rounds rounds' : Nat} (hrounds : rounds ≤ rounds') {s rest : Text} {xs : List α}
    (h : readMore element close rounds s = some (xs, rest)) (more : Text) :
    readMore element close rounds' (s ++ more) = some (xs, rest ++ more) := by
  induction rounds generalizing rounds' s xs with
  | zero => cases h
  | succ rounds ih =>
      obtain ⟨rounds', rfl⟩ := Nat.exists_eq_add_of_le' hrounds
      unfold readMore at h
      split at h
      · cases h
      · next c s' hs =>
        rw [← Nat.add_assoc, readMore, skipSpace_append hs]
        dsimp only
        split at h
        · next hclose =>
          cases h
          rw [if_pos hclose]
        · next hclose =>
          rw [if_neg hclose]
          split at h
          · next hcomma =>
            rw [if_pos hcomma]
            simp only [Option.bind_eq_bind, Option.bind_eq_some_iff] at h
            obtain ⟨⟨x, s₁⟩, hx, ⟨ys, s₂⟩, hys, heq⟩ := h
            cases heq
            have hleft : s₁ ≠ [] := by
              rintro rfl
              rw [readMore_nil] at hys
              cases hys
            rw [element_append he hx hleft, Option.bind_eq_bind, Option.bind_some,
              ih (Nat.le_add_left rounds rounds') hys]
            rfl
          · cases h

/-- **The reader of a sequence is steady.** -/
theorem steady_readSequence {element : Reader α} (he : Local element) (close : Char) :
    Steady (readSequence element close) := by
  intro s xs rest more h
  unfold readSequence at h
  split at h
  · cases h
  · next c s' hs =>
    rw [readSequence, skipSpace_append hs]
    dsimp only
    split at h
    · next hclose =>
      cases h
      rw [if_pos hclose]
    · next hclose =>
      rw [if_neg hclose]
      simp only [Option.bind_eq_bind, Option.bind_eq_some_iff] at h
      obtain ⟨⟨x, s₁⟩, hx, ⟨ys, s₂⟩, hys, heq⟩ := h
      cases heq
      have hleft : s₁ ≠ [] := by
        rintro rfl
        rw [readMore_nil] at hys
        cases hys
      rw [← List.cons_append, he.append more hx hleft, Option.bind_eq_bind, Option.bind_some,
        readMore_append he (by simp) hys]
      rfl

theorem local_readMember {value : Reader Json} (hv : Local value) : Local (readMember value) := by
  refine ⟨rfl, fun {s m rest} more h hrest => ?_⟩
  unfold readMember readMemberBy at h
  split at h
  · next s =>
    simp only [Option.bind_eq_bind, Option.bind_eq_some_iff] at h
    obtain ⟨⟨k, s₁⟩, hk, h⟩ := h
    split at h
    · next s₂ hs =>
      simp only [Option.bind_eq_some_iff] at h
      obtain ⟨⟨v, s₃⟩, hvalue, heq⟩ := h
      cases heq
      rw [List.cons_append, readMember, readMemberBy, steady_readString more hk, Option.bind_eq_bind,
        Option.bind_some]
      dsimp only
      rw [skipSpace_append hs]
      simp only [element_append hv hvalue hrest]
      rfl
    · cases h
  · cases h

/-! ## Values -/

theorem readValue_of_ne {depth : Nat} {c : Char} (harr : c ≠ '[') (hobj : c ≠ '{') (s : Text) :
    readValue (depth + 1) (c :: s) = readScalar (c :: s) := by
  unfold readValue
  split
  · next heq => exact absurd (List.cons.inj heq).1 harr
  · next heq => exact absurd (List.cons.inj heq).1 hobj
  · rfl

/-- **A value is read the same way whatever is appended, if it closes itself or something was left
behind it.** -/
theorem readValue_append {depth : Nat} (ih : Local (readValue depth)) {c : Char}
    {s rest : Text} {v : Json} (h : readValue (depth + 1) (c :: s) = some (v, rest))
    (closed : isSelfClosing c = true ∨ rest ≠ []) (more : Text) :
    readValue (depth + 1) (c :: s ++ more) = some (v, rest ++ more) := by
  rw [List.cons_append]
  by_cases harr : c = '['
  · subst harr
    obtain ⟨parts, hparts, heq⟩ := Option.map_eq_some_iff.1 h
    cases heq
    exact Option.map_eq_some_iff.2 ⟨_, steady_readSequence ih _ more hparts, rfl⟩
  · by_cases hobj : c = '{'
    · subst hobj
      obtain ⟨parts, hparts, heq⟩ := Option.map_eq_some_iff.1 h
      cases heq
      exact Option.map_eq_some_iff.2
        ⟨_, steady_readSequence (local_readMember ih) _ more hparts, rfl⟩
    · rw [readValue_of_ne harr hobj] at h ⊢
      rcases closed with hclosed | hrest
      · have hquote : c = '"' := by
          simpa [isSelfClosing, harr, hobj] using hclosed
        subst hquote
        obtain ⟨parts, hparts, heq⟩ := Option.map_eq_some_iff.1 h
        cases heq
        exact Option.map_eq_some_iff.2 ⟨_, steady_readString more hparts, rfl⟩
      · exact local_readScalar.append more h hrest

theorem local_readValue (depth : Nat) : Local (readValue depth) := by
  induction depth with
  | zero => exact local_readScalar
  | succ depth ih =>
      refine ⟨rfl, fun {s v rest} more h hrest => ?_⟩
      cases s with
      | nil => cases h
      | cons c s => exact readValue_append ih h (.inr hrest) more

end Json

end Stencil
