import Stencil.Proofs.Json.Frugal
import Stencil.Proofs.Token.Shape

/-!
# Tokens in a text that is cut off

A token is looked for in all the text that follows its opening delimiter, and a default
may be read far beyond the first closing delimiter.  Still nothing behind the token
matters: it is read in the same way wherever the text behind it is cut off, and so it is
read if it stands alone (`exists_taken_of_read?`).  The first closing delimiter lies in
the token, and the reader of its default is frugal.

Where there is no token, there is none either if the text is cut off anywhere
(`read?_none_of_append`).  If the first closing delimiter is still there, the path in front
of it is missing as before, and without a closing delimiter there is no token at all.
-/

set_option autoImplicit false

namespace Stencil.Token

variable {d : Delimiters} {body closing source after rest skipped left : Text} {token : Token}
  {v : Json}

/-! ## The default -/

/-- A default and the closing delimiter behind it are read wherever the text behind them is cut off. -/
theorem exists_skipped_of_longDefault? (h : longDefault? closing source = some (v, rest)) :
    ∃ skipped, source = skipped ++ closing ++ rest ∧
      ∀ left, left <+: rest → longDefault? closing (skipped ++ closing ++ left) = some (v, left) := by
  unfold longDefault? at h
  split at h
  · cases h
  · next w tail hfront =>
    obtain ⟨rest', hclosing, heq⟩ := Option.map_eq_some_iff.1 h
    cases heq
    obtain ⟨before, hsource, -, hbefore⟩ := Text.exists_trimStart source
    obtain ⟨taken, htaken, hread⟩ := Json.frugal_readFront? hfront
    obtain ⟨behind, htail, -, hbehind⟩ := Text.exists_trimStart tail
    have hrest := Text.eq_append_of_isPrefixOf? hclosing
    refine ⟨before ++ taken ++ behind, ?_, fun left hleft => ?_⟩
    · rw [hsource, htaken, htail, hrest]
      simp only [List.append_assoc]
    · have hleft₂ : closing ++ left <+: Text.trimStart tail := Text.append_isPrefix hrest hleft
      have hleft₁ : behind ++ (closing ++ left) <+: tail := Text.append_isPrefix htail hleft₂
      have hleft₀ : taken ++ (behind ++ (closing ++ left)) <+: Text.trimStart source :=
        Text.append_isPrefix htaken hleft₁
      have hcut : before ++ taken ++ behind ++ closing ++ left =
          before ++ (taken ++ (behind ++ (closing ++ left))) := by simp only [List.append_assoc]
      rw [hcut, longDefault?, hbefore _ hleft₀, hread _ hleft₁]
      dsimp only
      rw [hbehind _ hleft₂, Text.isPrefixOf?_append]
      rfl

/-- The default of a token is read wherever the text behind the token is cut off. -/
theorem readDefault?_of_cut {after' : Text} (h : readDefault? closing source after = some (v, rest))
    (goesOn : source ++ closing ++ after = skipped ++ closing ++ rest) (hleft : left <+: rest)
    (cut : source ++ closing ++ after' = skipped ++ closing ++ left) :
    readDefault? closing source after' = some (v, left) := by
  unfold readDefault? at h ⊢
  cases hshort : shortDefault? source with
  | some w =>
      rw [hshort] at h
      cases h
      cases List.append_cancel_right (List.append_cancel_right goesOn)
      rw [List.append_cancel_left cut]
  | none =>
      rw [hshort] at h
      obtain ⟨skipped', hskipped, hread⟩ := exists_skipped_of_longDefault? h
      cases List.append_cancel_right (List.append_cancel_right (goesOn.symm.trans hskipped))
      dsimp only
      rw [cut]
      exact hread left hleft

/-! ## The token -/

/-- **A token is read wherever the text behind it is cut off.** -/
theorem exists_taken_of_read? (h : read? d body = .ok (some (token, rest))) :
    ∃ taken, token.written = d.opening ++ taken ∧ body = taken ++ rest ∧
      ∀ left, left <+: rest → read? d (taken ++ left) = .ok (some (token, left)) := by
  cases heads_of_read? h with
  | plain first declared unmarked named =>
      exact ⟨_, List.append_assoc _ _ _, Text.eq_append_of_splitFirst? first, fun left _ =>
        read?_of_heads (.plain (Text.splitFirst?_behind first left) declared unmarked named)⟩
  | @marked content tag inner front source skipped after rest cast v first declared tagged mark named
      fallback goesOn =>
      have hinner := Text.eq_append_of_splitFirst? mark
      obtain ⟨-, hbody⟩ := body_eq (Text.eq_append_of_splitFirst? first) tagged hinner goesOn
      refine ⟨tag ++ front ++ defaultMark ++ skipped ++ d.closing, List.append_assoc _ _ _, hbody,
        fun left hleft => ?_⟩
      have hcontent : content = tag ++ front ++ defaultMark ++ source := by
        simp only [tagged, hinner, List.append_assoc]
      -- the first closing delimiter is not behind the one that ends the token
      obtain ⟨more, hmore⟩ : source ++ d.closing <+: skipped ++ d.closing := by
        have hlength := Text.length_le_of_splitFirst? first hbody
        rw [hcontent] at hlength
        refine List.prefix_of_prefix_length_le ⟨after, goesOn⟩ ⟨rest, rfl⟩ ?_
        simp only [List.length_append] at hlength ⊢
        omega
      have cut : source ++ d.closing ++ (more ++ left) = skipped ++ d.closing ++ left := by
        rw [← hmore, List.append_assoc (source ++ d.closing)]
      have first' := Text.splitFirst?_behind first (more ++ left)
      have hcut : content ++ d.closing ++ (more ++ left) =
          tag ++ front ++ defaultMark ++ skipped ++ d.closing ++ left := by
        simp only [hcontent, List.append_assoc] at cut ⊢
        rw [cut]
      rw [hcut] at first'
      exact read?_of_heads (.marked first' declared tagged mark named
        (readDefault?_of_cut fallback goesOn hleft cut) cut)

/-- **Where there is no token, there is none if the text is cut off.** -/
theorem read?_none_of_append {part more : Text} (h : read? d (part ++ more) = .ok none) :
    read? d part = .ok none :=
  read?_eq_none_iff.2 fun first =>
    read?_eq_none_iff.1 h (Text.splitFirst?_append_of_some first more)

end Stencil.Token
