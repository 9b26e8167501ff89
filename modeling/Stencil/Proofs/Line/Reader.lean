import Stencil.Line.Reader
import Stencil.Proofs.Steps

/-!
# One step of taking a text apart

Up to the first opening delimiter a text is literal.  What is read behind that delimiter
decides how it goes on: behind a token, or behind the delimiter if there is no token, and
not at all if there is a fault.  Every token of the line was read in one of those steps
(`exists_read?_of_mem_tokens`).
-/

set_option autoImplicit false

namespace Stencil.Line

variable {d : Delimiters} {s literal body rest : Text} {token : Token}

theorem ofText_of_none (h : Text.splitFirst? d.opening s = none) : ofText d s = .ok ⟨[], s⟩ := by
  rw [ofText]
  split
  · rfl
  · next hopen => rw [h] at hopen; cases hopen

theorem ofText_of_no_token (hopen : Text.splitFirst? d.opening s = some (literal, body))
    (hnone : Token.read? d body = .ok none) :
    ofText d s = (ofText d body).map (prepend (literal ++ d.opening)) := by
  rw [ofText]
  split
  · next hopen' => rw [hopen] at hopen'; cases hopen'
  · next literal' body' hopen' =>
    cases hopen.symm.trans hopen'
    split
    · next fault herror => rw [hnone] at herror; cases herror
    · rfl
    · next token rest htoken => rw [hnone] at htoken; cases htoken

theorem ofText_of_token (hopen : Text.splitFirst? d.opening s = some (literal, body))
    (htoken : Token.read? d body = .ok (some (token, rest))) :
    ofText d s = (ofText d rest).map (cons literal token) := by
  rw [ofText]
  split
  · next hnone => rw [hopen] at hnone; cases hnone
  · next literal' body' hopen' =>
    cases hopen.symm.trans hopen'
    split
    · next fault herror => rw [htoken] at herror; cases herror
    · next hnone => rw [htoken] at hnone; cases hnone
    · next token' rest' htoken' =>
      cases htoken.symm.trans htoken'
      rfl

/-- **Every token of a line was read** behind an opening delimiter. -/
theorem exists_read?_of_mem_tokens {l : Line} (h : ofText d s = .ok l) (ht : token ∈ l.tokens) :
    ∃ body rest, Token.read? d body = .ok (some (token, rest)) := by
  fun_induction ofText d s generalizing l with
  | case1 s hopen =>
      cases h
      cases ht
  | case2 => cases h
  | case3 s literal body hopen hnone ih =>
      obtain ⟨l', hl', rfl⟩ := map_eq_ok_iff.1 h
      rw [tokens_prepend] at ht
      exact ih hl' ht
  | case4 s literal body hopen token' rest htoken ih =>
      obtain ⟨l', hl', rfl⟩ := map_eq_ok_iff.1 h
      rw [tokens_cons, List.mem_cons] at ht
      rcases ht with rfl | ht
      · exact ⟨body, rest, htoken⟩
      · exact ih hl' ht

end Stencil.Line
