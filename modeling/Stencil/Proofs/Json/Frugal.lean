import Stencil.Proofs.Json.Locality
import Stencil.Proofs.Text.Blank

/-!
# What is left can be cut off

A reader takes a beginning of its text and leaves the rest.  It is frugal if it reads the
same wherever that rest is cut off: the characters that it takes and those right behind
them are all it needs.

Every reader is frugal, also those of words and numbers, which have no closing mark.
What showed that a word or a number has ended is then either still there or it is now the
end of the text.  Readers that follow each other are frugal together, so this goes along
the definitions, up to a value at the front of a text (`frugal_readFront?`).  The rounds
in which a sequence is read are counted by the characters of the text, of which there are
fewer when its end is cut off, but still enough (`readMore_of_length_le`).
-/

set_option autoImplicit false

namespace Stencil.Json

/-- The reader takes a beginning of its text, and reads the same if what it left is cut off
somewhere. -/
def Frugal {α : Type} (r : Reader α) : Prop :=
  ∀ {s : Text} {x : α} {rest : Text}, r s = some (x, rest) →
    ∃ taken, s = taken ++ rest ∧ ∀ left, left <+: rest → r (taken ++ left) = some (x, left)

variable {α : Type} {s rest left : Text}

theorem Frugal.leavesSuffix {r : Reader α} (hr : Frugal r) : LeavesSuffix r := by
  intro s x rest h
  obtain ⟨taken, hs, -⟩ := hr h
  exact ⟨taken, hs.symm⟩

/-- A reader that takes nothing from nothing takes at least the first character. -/
theorem Frugal.cons {r : Reader α} (hr : Frugal r) (nil : r [] = none) {c : Char} {x : α}
    (h : r (c :: s) = some (x, rest)) :
    ∃ taken, s = taken ++ rest ∧ ∀ left, left <+: rest → r (c :: (taken ++ left)) = some (x, left) := by
  obtain ⟨taken, hs, hread⟩ := hr h
  cases taken with
  | nil =>
      have hnil := hread [] List.nil_prefix
      rw [List.append_nil, nil] at hnil
      cases hnil
  | cons c' taken =>
      cases hs
      exact ⟨taken, rfl, hread⟩

/-! ## Space -/

/-- Space is skipped wherever the text behind it is cut off. -/
theorem exists_skipSpace (s : Text) :
    ∃ space, s = space ++ skipSpace s ∧
      ∀ left, left <+: skipSpace s → skipSpace (space ++ left) = left :=
  ⟨s.takeWhile Char.isWhitespace, List.takeWhile_append_dropWhile.symm,
    fun _ => Text.dropWhile_takeWhile_append⟩

/-! ## Scalars -/

theorem frugal_readString : Frugal readString := by
  intro s x rest h
  obtain ⟨⟨text, rest'⟩, hread, heq⟩ := Option.map_eq_some_iff.1 h
  cases heq
  simp only [Quoted.read, Option.bind_eq_bind, Option.bind_eq_some_iff] at hread
  obtain ⟨⟨raw, rest'⟩, hcut, text', htext, heq⟩ := hread
  cases heq
  dsimp only at htext
  obtain ⟨taken, rfl, htaken⟩ := Quoted.exists_cutAtQuote hcut
  exact ⟨taken, rfl, fun left _ => by simp [readString, Quoted.read, htaken, htext]⟩

theorem frugal_readWord : Frugal readWord := by
  intro s v rest h
  obtain ⟨word, hword, hs⟩ := readWord_eq_some h
  exact ⟨word, hs, fun left _ => readWord_append hword left⟩

theorem frugal_readNumber : Frugal readNumber := by
  intro s v rest h
  obtain ⟨n, hn, heq⟩ := Option.map_eq_some_iff.1 h
  cases heq
  refine ⟨s.takeWhile isNumberChar, List.takeWhile_append_dropWhile.symm, fun left hleft => ?_⟩
  have hdrop := Text.dropWhile_takeWhile_append hleft
  have htake : (s.takeWhile isNumberChar ++ left).takeWhile isNumberChar =
      s.takeWhile isNumberChar := by
    have hwhole := List.takeWhile_append_dropWhile (p := isNumberChar)
      (l := s.takeWhile isNumberChar ++ left)
    rw [hdrop] at hwhole
    exact List.append_cancel_right hwhole
  rw [readNumber, htake, hdrop, hn]
  rfl

theorem frugal_readScalar : Frugal readScalar := by
  intro s v rest h
  cases s with
  | nil => cases h
  | cons c s =>
      by_cases hc : c = '"'
      · subst hc
        obtain ⟨parts, hparts, heq⟩ := Option.map_eq_some_iff.1 h
        cases heq
        obtain ⟨taken, rfl, htaken⟩ := frugal_readString hparts
        refine ⟨'"' :: taken, rfl, fun left hleft => ?_⟩
        rw [List.cons_append, readScalar, htaken left hleft]
        rfl
      · rw [readScalar_of_ne hc] at h
        rcases Option.or_eq_some_iff.1 h with hword | ⟨-, hnumber⟩
        · obtain ⟨taken, rfl, hread⟩ := frugal_readWord.cons rfl hword
          refine ⟨c :: taken, rfl, fun left hleft => ?_⟩
          rw [List.cons_append, readScalar_of_ne hc, hread left hleft]
          rfl
        · obtain ⟨c', s', heq, hchar⟩ := exists_cons_of_readNumber hnumber
          cases heq
          obtain ⟨taken, rfl, hread⟩ := frugal_readNumber.cons rfl hnumber
          refine ⟨c :: taken, rfl, fun left hleft => ?_⟩
          rw [List.cons_append, readScalar_of_ne hc, readWord_eq_none hchar]
          exact hread left hleft

/-! ## Sequences -/

/-- A value that is read behind space is read there wherever what it leaves is cut off. -/
theorem exists_spaced {r : Reader α} (hr : Frugal r) {x : α}
    (h : r (skipSpace s) = some (x, rest)) :
    ∃ taken, s = taken ++ rest ∧
      ∀ left, left <+: rest → r (skipSpace (taken ++ left)) = some (x, left) := by
  obtain ⟨space, hs, hspace⟩ := exists_skipSpace s
  obtain ⟨taken, htaken, hread⟩ := hr h
  refine ⟨space ++ taken, by rw [List.append_assoc, ← htaken, ← hs], fun left hleft => ?_⟩
  rw [List.append_assoc, hspace _ (Text.append_isPrefix htaken hleft), hread left hleft]

/-- So many rounds as there are characters are enough. -/
theorem readMore_of_length_le {element : Reader α} (he : LeavesSuffix element) {close : Char}
    {rounds rounds' : Nat} {xs : List α} (h : readMore element close rounds s = some (xs, rest))
    (enough : s.length ≤ rounds') : readMore element close rounds' s = some (xs, rest) := by
  induction rounds generalizing rounds' s xs with
  | zero => cases h
  | succ rounds ih =>
      unfold readMore at h
      split at h
      · cases h
      · next c tail hs =>
        have htail : tail.length + 1 ≤ rounds' := by
          have hlength := (skipSpace_suffix s).length_le
          rw [hs, List.length_cons] at hlength
          omega
        obtain ⟨rounds', rfl⟩ := Nat.exists_eq_add_of_le' htail
        rw [← Nat.add_assoc, readMore, hs]
        dsimp only
        split at h
        · next hclose => rw [if_pos hclose, h]
        · next hclose =>
          rw [if_neg hclose]
          split at h
          · next hcomma =>
            rw [if_pos hcomma]
            simp only [Option.bind_eq_bind, Option.bind_eq_some_iff] at h
            obtain ⟨⟨x, s₁⟩, hx, ⟨ys, s₂⟩, hys, heq⟩ := h
            cases heq
            dsimp only at hys
            have hlength : s₁.length ≤ tail.length :=
              ((he hx).trans (skipSpace_suffix tail)).length_le
            rw [hx, Option.bind_eq_bind, Option.bind_some, ih hys (by omega)]
            rfl
          · cases h

theorem frugal_readMore {element : Reader α} (he : Frugal element) (close : Char) (rounds : Nat) :
    Frugal (readMore element close rounds) := by
  induction rounds with
  | zero => intro s xs rest h; cases h
  | succ rounds ih =>
      intro s xs rest h
      obtain ⟨space, hspace, hskip⟩ := exists_skipSpace s
      unfold readMore at h
      split at h
      · cases h
      · next c tail hs =>
        rw [hs] at hspace hskip
        split at h
        · next hclose =>
          cases h
          refine ⟨space ++ [c], by rw [hspace, List.append_assoc, List.singleton_append],
            fun left hleft => ?_⟩
          rw [List.append_assoc, List.singleton_append, readMore,
            hskip _ (List.cons_prefix_cons.2 ⟨rfl, hleft⟩)]
          exact if_pos hclose
        · next hclose =>
          split at h
          · next hcomma =>
            simp only [Option.bind_eq_bind, Option.bind_eq_some_iff] at h
            obtain ⟨⟨x, s₁⟩, hx, ⟨ys, s₂⟩, hys, heq⟩ := h
            cases heq
            dsimp only at hys
            obtain ⟨first, htail, hfirst⟩ := exists_spaced he hx
            obtain ⟨others, hs₁, hothers⟩ := ih hys
            refine ⟨space ++ c :: (first ++ others), ?_, fun left hleft => ?_⟩
            · rw [hspace, htail, hs₁]
              simp only [List.append_assoc, List.cons_append]
            · have hleft₁ : others ++ left <+: s₁ := Text.append_isPrefix hs₁ hleft
              have hleft₀ : c :: (first ++ (others ++ left)) <+: c :: tail :=
                List.cons_prefix_cons.2 ⟨rfl, Text.append_isPrefix htail hleft₁⟩
              rw [List.append_assoc, List.cons_append, List.append_assoc, readMore, hskip _ hleft₀]
              dsimp only
              rw [if_neg hclose, if_pos hcomma, hfirst _ hleft₁, Option.bind_eq_bind,
                Option.bind_some, hothers _ hleft]
              rfl
          · cases h

/-- **The reader of a sequence is frugal.** -/
theorem frugal_readSequence {element : Reader α} (he : Frugal element) (close : Char) :
    Frugal (readSequence element close) := by
  intro s xs rest h
  obtain ⟨space, hspace, hskip⟩ := exists_skipSpace s
  unfold readSequence at h
  split at h
  · cases h
  · next c tail htail =>
    rw [htail] at hspace hskip
    split at h
    · next hclose =>
      cases h
      refine ⟨space ++ [c], by rw [hspace, List.append_assoc, List.singleton_append],
        fun left hleft => ?_⟩
      rw [List.append_assoc, List.singleton_append, readSequence,
        hskip _ (List.cons_prefix_cons.2 ⟨rfl, hleft⟩)]
      exact if_pos hclose
    · next hclose =>
      simp only [Option.bind_eq_bind, Option.bind_eq_some_iff] at h
      obtain ⟨⟨x, s₁⟩, hx, ⟨ys, s₂⟩, hys, heq⟩ := h
      cases heq
      dsimp only at hys
      obtain ⟨first, hfirst, hread⟩ := he hx
      obtain ⟨others, hs₁, hothers⟩ := frugal_readMore he close _ hys
      refine ⟨space ++ (first ++ others), ?_, fun left hleft => ?_⟩
      · rw [hspace, hfirst, hs₁]
        simp only [List.append_assoc]
      · have hmore := hothers left hleft
        have hleft₁ : others ++ left <+: s₁ := Text.append_isPrefix hs₁ hleft
        have hleft₀ : first ++ (others ++ left) <+: c :: tail := Text.append_isPrefix hfirst hleft₁
        -- something must follow the first element, so the first character is still there
        obtain ⟨tail', hcons⟩ : ∃ tail', first ++ (others ++ left) = c :: tail' := by
          rcases List.prefix_cons_iff.1 hleft₀ with hnil | ⟨tail', hcons, -⟩
          · rw [(List.append_eq_nil_iff.1 hnil).2, readMore_nil] at hmore
            cases hmore
          · exact ⟨tail', hcons⟩
        rw [List.append_assoc, List.append_assoc, readSequence, hskip _ hleft₀, hcons]
        dsimp only
        rw [if_neg hclose, ← hcons, hread _ hleft₁, Option.bind_eq_bind, Option.bind_some,
          readMore_of_length_le he.leavesSuffix hmore (Nat.le_refl _)]
        rfl

theorem frugal_readMember {value : Reader Json} (hv : Frugal value) :
    Frugal (readMember value) := by
  intro s m rest h
  unfold readMember readMemberBy at h
  split at h
  · next s =>
    simp only [Option.bind_eq_bind, Option.bind_eq_some_iff] at h
    obtain ⟨⟨k, s₁⟩, hk, h⟩ := h
    split at h
    · next s₂ hs =>
      simp only [Option.bind_eq_some_iff] at h
      obtain ⟨⟨v, s₃⟩, hvalue, heq⟩ := h
      cases heq
      obtain ⟨key, hkey, hreadKey⟩ := frugal_readString hk
      obtain ⟨space, hspace, hskip⟩ := exists_skipSpace s₁
      obtain ⟨written, hwritten, hread⟩ := exists_spaced hv hvalue
      rw [hs] at hspace hskip
      refine ⟨'"' :: (key ++ (space ++ ':' :: written)), ?_, fun left hleft => ?_⟩
      · rw [hkey, hspace, hwritten]
        simp only [List.append_assoc, List.cons_append]
      · have hleft₂ : ':' :: (written ++ left) <+: ':' :: s₂ :=
          List.cons_prefix_cons.2 ⟨rfl, Text.append_isPrefix hwritten hleft⟩
        have hleft₁ : space ++ ':' :: (written ++ left) <+: s₁ := Text.append_isPrefix hspace hleft₂
        rw [List.cons_append, List.append_assoc, List.append_assoc, List.cons_append, readMember,
          readMemberBy, hreadKey _ hleft₁, Option.bind_eq_bind, Option.bind_some]
        dsimp only
        rw [hskip _ hleft₂]
        simp only [hread _ hleft]
        rfl
    · cases h
  · cases h

/-! ## Values -/

theorem frugal_readValue (depth : Nat) : Frugal (readValue depth) := by
  induction depth with
  | zero => exact frugal_readScalar
  | succ depth ih =>
      intro s v rest h
      cases s with
      | nil => cases h
      | cons c s =>
          by_cases harr : c = '['
          · subst harr
            obtain ⟨parts, hparts, heq⟩ := Option.map_eq_some_iff.1 h
            cases heq
            obtain ⟨taken, rfl, htaken⟩ := frugal_readSequence ih _ hparts
            exact ⟨'[' :: taken, rfl, fun left hleft =>
              Option.map_eq_some_iff.2 ⟨_, htaken left hleft, rfl⟩⟩
          · by_cases hobj : c = '\x7b'
            · subst hobj
              obtain ⟨parts, hparts, heq⟩ := Option.map_eq_some_iff.1 h
              cases heq
              obtain ⟨taken, rfl, htaken⟩ := frugal_readSequence (frugal_readMember ih) _ hparts
              exact ⟨'\x7b' :: taken, rfl, fun left hleft =>
                Option.map_eq_some_iff.2 ⟨_, htaken left hleft, rfl⟩⟩
            · rw [readValue_of_ne harr hobj] at h
              obtain ⟨taken, rfl, hread⟩ := frugal_readScalar.cons rfl h
              refine ⟨c :: taken, rfl, fun left hleft => ?_⟩
              rw [List.cons_append, readValue_of_ne harr hobj]
              exact hread left hleft

theorem isEnd_of_isPrefix (h : isEnd rest = true) (hleft : left <+: rest) : isEnd left = true := by
  cases left with
  | nil => rfl
  | cons c left =>
      obtain ⟨more, rfl⟩ := hleft
      exact h

/-- **The reader of a value at the front of a text is frugal.** -/
theorem frugal_readFront? : Frugal readFront? := by
  intro s v rest h
  unfold readFront? at h
  dsimp only at h
  split at h
  · next v' rest' hv =>
    split at h
    · next ended =>
      cases h
      obtain ⟨space, hspace, hskip⟩ := exists_skipSpace s
      obtain ⟨taken, htaken, hread⟩ := frugal_readValue _ hv
      refine ⟨space ++ taken, by rw [List.append_assoc, ← htaken, ← hspace], fun left hleft => ?_⟩
      have ended' : (taken ++ left).head?.any isSelfClosing ∨ isEnd left := by
        rcases ended with closed | ended
        · cases taken with
          | nil => cases hread [] List.nil_prefix
          | cons c taken =>
              rw [htaken] at closed
              exact .inl closed
        · exact .inr (isEnd_of_isPrefix ended hleft)
      unfold readFront?
      rw [List.append_assoc, hskip _ (Text.append_isPrefix htaken hleft)]
      dsimp only
      rw [hread left hleft]
      exact if_pos ended'
    · cases h
  · cases h

end Stencil.Json
