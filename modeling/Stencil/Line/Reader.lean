import Stencil.Line.Basic
import Stencil.Token.Reader

/-!
# Taking a template string apart

The string is searched for opening delimiters from left to right.  Where a token
starts it is taken, and the search goes on behind it.  Where an opening delimiter
starts no token it is literal text, and the search goes on behind the delimiter.
The first token that is at fault makes the whole string faulty.

Nothing is lost on the way: the text of the line that comes out is the string
that went in.
-/

namespace Stencil.Line

set_option autoImplicit false

/-- What follows a token is shorter than the text in which its opening delimiter was found. -/
theorem length_lt_of_read? {d : Delimiters} {s literal body rest : Text} {token : Token}
    (hopen : Text.splitFirst? d.opening s = some (literal, body))
    (h : Token.read? d body = .ok (some (token, rest))) : rest.length < s.length := by
  have hbody := Text.length_lt_of_splitFirst? d.opening_ne_nil hopen
  have hrest := (Token.written_append_of_read? h).2.length_le
  simp only [List.length_append] at hrest
  omega

/-- The line that a string denotes. -/
def ofText (d : Delimiters) (s : Text) : Except Fault Line :=
  match _hopen : Text.splitFirst? d.opening s with
  | none => .ok ⟨[], s⟩
  | some (literal, body) =>
    match _h : Token.read? d body with
    | .error fault => .error fault
    | .ok none => (ofText d body).map (prepend (literal ++ d.opening))
    | .ok (some (token, rest)) => (ofText d rest).map (cons literal token)
termination_by s.length
decreasing_by
  · exact Text.length_lt_of_splitFirst? d.opening_ne_nil ‹_›
  · exact length_lt_of_read? ‹Text.splitFirst? d.opening s = _› ‹_›

/-- The line that a string denotes is that string taken apart. -/
theorem text_of_ofText {d : Delimiters} {s : Text} {l : Line} (h : ofText d s = .ok l) :
    l.text = s := by
  fun_induction ofText d s generalizing l with
  | case1 s hopen => cases h; simp [text]
  | case2 => cases h
  | case3 s literal body hopen htoken ih =>
    obtain ⟨l', hl', rfl⟩ : ∃ l', ofText d body = .ok l' ∧ prepend (literal ++ d.opening) l' = l := by
      cases hbody : ofText d body with
      | error fault => rw [hbody] at h; cases h
      | ok l' => rw [hbody] at h; cases h; exact ⟨l', rfl, rfl⟩
    rw [text_prepend, ih hl', ← Text.eq_append_of_splitFirst? hopen]
  | case4 s literal body hopen token rest htoken ih =>
    obtain ⟨l', hl', rfl⟩ : ∃ l', ofText d rest = .ok l' ∧ cons literal token l' = l := by
      cases hrest : ofText d rest with
      | error fault => rw [hrest] at h; cases h
      | ok l' => rw [hrest] at h; cases h; exact ⟨l', rfl, rfl⟩
    rw [text_cons, ih hl', List.append_assoc, (Token.written_append_of_read? htoken).1,
      ← List.append_assoc, ← Text.eq_append_of_splitFirst? hopen]

end Stencil.Line
