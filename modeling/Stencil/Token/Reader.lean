import Stencil.Fault
import Stencil.Token.Basic

/-!
# Reading a token

A token starts with the opening delimiter and goes up to the first closing
delimiter.  Between them stand a declared type with a colon, or none, the path,
and after a double bar a default, or none.  Blank characters around the path and
the default do not count.  Without a closing delimiter, or without a path, there
is no token.

A default is JSON, and JSON may itself contain the closing delimiter.  So a
default that is no document up to the first closing delimiter is read once more,
as one value at the front of all the text that follows the double bar, and then
it is the closing delimiter behind that value which ends the token.  If neither
way gives a value the token is at fault, not just literal text.
-/

namespace Stencil

set_option autoImplicit false

/-- The declared type at the front of a token's content, and the content without it. -/
def Cast.splitTag (content : Text) : Cast × Text :=
  let declared := Cast.tags.findSome? fun tag =>
    ((tag.1 ++ [':']).isPrefixOf? (Text.trimStart content)).map fun inner => (tag.2, inner)
  declared.getD (.asIs, content)

namespace Token

/-- The mark between a path and a default. -/
def defaultMark : Text := "||".toList

/-- The default that ends at the first closing delimiter. -/
def shortDefault? (source : Text) : Option Json :=
  Json.parse? (Text.trim source)

/-- The default at the front of the text, and what follows the closing delimiter behind it. -/
def longDefault? (closing source : Text) : Option (Json × Text) :=
  match Json.readFront? (Text.trimStart source) with
  | none => none
  | some (v, rest) => (closing.isPrefixOf? (Text.trimStart rest)).map fun rest => (v, rest)

/-- The default whose text goes up to the first closing delimiter or beyond it, and what follows
the token.  `source` lies before that delimiter and `after` behind it. -/
def readDefault? (closing source after : Text) : Option (Json × Text) :=
  match shortDefault? source with
  | some v => some (v, after)
  | none => longDefault? closing (source ++ closing ++ after)

/-- The token whose opening delimiter stands in front of the text, and what follows it. -/
def read? (d : Delimiters) (body : Text) : Except Fault (Option (Token × Text)) :=
  match Text.splitFirst? d.closing body with
  | none => .ok none
  | some (content, after) =>
    let (cast, inner) := Cast.splitTag content
    match Text.splitFirst? defaultMark inner with
    | none =>
      let path := Text.trim inner
      if path = [] then .ok none
      else .ok (some (⟨cast, path, none, path, d.opening ++ content ++ d.closing⟩, after))
    | some (front, source) =>
      let path := Text.trim front
      if path = [] then .ok none
      else
        match readDefault? d.closing source after with
        | none => .error (.badDefault (Text.trim inner))
        | some (v, rest) =>
          let written := d.opening ++ Text.before body rest
          let expression := Text.trim (Text.before (inner ++ d.closing ++ after) (d.closing ++ rest))
          .ok (some (⟨cast, path, some v, expression, written⟩, rest))

/-! ## What follows a token is the end of the text -/

theorem suffix_of_longDefault? {closing source rest : Text} {v : Json}
    (h : longDefault? closing source = some (v, rest)) : closing ++ rest <:+ source := by
  unfold longDefault? at h
  split at h
  · cases h
  · next w tail hfront =>
    obtain ⟨rest', hrest, heq⟩ := Option.map_eq_some_iff.1 h
    cases heq
    rw [← Text.eq_append_of_isPrefixOf? hrest]
    exact ((Text.trimStart_isSuffix tail).trans (Json.leavesSuffix_readFront? hfront)).trans
      (Text.trimStart_isSuffix source)

/-- The closing delimiter and what follows it are the end of the text in which the default was
looked for. -/
theorem suffix_of_readDefault? {closing source after rest : Text} {v : Json}
    (h : readDefault? closing source after = some (v, rest)) :
    closing ++ rest <:+ source ++ closing ++ after := by
  unfold readDefault? at h
  split at h
  · cases h
    exact ⟨source, by simp⟩
  · exact suffix_of_longDefault? h

/-- A content is its tag and the rest. -/
theorem suffix_splitTag (content : Text) : (Cast.splitTag content).2 <:+ content := by
  unfold Cast.splitTag
  cases h : Cast.tags.findSome? fun tag =>
      ((tag.1 ++ [':']).isPrefixOf? (Text.trimStart content)).map fun inner => (tag.2, inner) with
  | none => exact List.suffix_refl _
  | some found =>
    obtain ⟨tag, -, htag⟩ := List.exists_of_findSome?_eq_some h
    obtain ⟨inner, hinner, heq⟩ := Option.map_eq_some_iff.1 htag
    cases heq
    have hsuffix : inner <:+ Text.trimStart content :=
      ⟨tag.1 ++ [':'], (Text.eq_append_of_isPrefixOf? hinner).symm⟩
    exact hsuffix.trans (Text.trimStart_isSuffix content)

/-- A token that is read lies between its opening delimiter and what follows it. -/
theorem written_append_of_read? {d : Delimiters} {body rest : Text} {token : Token}
    (h : read? d body = .ok (some (token, rest))) :
    token.written ++ rest = d.opening ++ body ∧ d.closing ++ rest <:+ body := by
  unfold read? at h
  split at h
  · cases h
  · next content after hclose =>
    have hbody := Text.eq_append_of_splitFirst? hclose
    dsimp only at h
    split at h
    · split at h
      · cases h
      · cases h
        exact ⟨by simp [hbody], content, by simp [hbody]⟩
    · next front source hmark =>
      have hsource := Text.eq_append_of_splitFirst? hmark
      obtain ⟨tag, htag⟩ := suffix_splitTag content
      generalize (Cast.splitTag content).2 = inner at htag hsource h
      split at h
      · cases h
      · split at h
        · cases h
        · next v rest' hdefault =>
          cases h
          -- the default lies in the source, the source in the inner text, and that in the body
          obtain ⟨skipped, hskipped⟩ := suffix_of_readDefault? hdefault
          have hsuffix : d.closing ++ rest <:+ body :=
            ⟨tag ++ (front ++ defaultMark) ++ skipped, by
              rw [hbody, ← htag, hsource]
              simp only [List.append_assoc] at hskipped ⊢
              rw [hskipped]⟩
          refine ⟨?_, hsuffix⟩
          obtain ⟨taken, htaken⟩ := (List.suffix_append d.closing rest).trans hsuffix
          dsimp only
          rw [← htaken, Text.before_append, List.append_assoc]

end Token

end Stencil
