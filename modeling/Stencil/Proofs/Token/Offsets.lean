import Stencil.Proofs.Text.Slice
import Stencil.Proofs.Token.Shape

/-!
# Reading a token by offsets

The readers of this library take a text apart, and what they leave tells where they are.
Here a token is read by byte offsets instead: every part of the text is a slice of it,
and every offset is computed from others, some of them relative to the whole text, some
to the body behind the opening delimiter, some to the text in which a default is looked
for.  Every slice is checked.  If one were out of range or within a character there
would be no answer at all, not even a fault.

There always is an answer, and it is that of the reader that takes the text apart
(`readAt?_eq`).  This is shown part by part, for the declared type
(`exists_splitTagAt?`), for the default (`readDefaultAt?_eq`) and for the whole token:
what is read at an offset is what is read from the text behind that offset.
-/

set_option autoImplicit false

namespace Stencil

/-- The declared type at the front of a token's body, and the offset at which the path begins. -/
def Cast.splitTagAt? (body : Text) : Option (Cast × Nat) := do
  let leading := body.byteLength - (Text.trimStart body).byteLength
  let trimmed ← body.slice? leading body.byteLength
  match Text.splitFirst? [':'] trimmed with
  | none => return (asIs, 0)
  | some (tag, _) =>
    match ofTag? tag with
    | none => return (asIs, 0)
    | some cast => return (cast, leading + tag.byteLength + 1)

namespace Token

/-- The default at the front of the text behind an offset of the body, and the offset of the closing
delimiter behind it. -/
def longDefaultAt? (closing body : Text) (defaultAt : Nat) : Option (Option (Json × Nat)) := do
  let rest ← body.slice? defaultAt body.byteLength
  let jsonAt := defaultAt + (rest.byteLength - (Text.trimStart rest).byteLength)
  let stream ← body.slice? jsonAt body.byteLength
  match Json.readFront? stream with
  | none => return none
  | some (v, left) =>
    let after := jsonAt + (stream.byteLength - left.byteLength)
    let tail ← body.slice? after body.byteLength
    let stopAt := after + (tail.byteLength - (Text.trimStart tail).byteLength)
    let found ← body.slice? stopAt body.byteLength
    return (closing.isPrefixOf? found).map fun _ => (v, stopAt)

/-- The default that starts at an offset of the body, and the offset of the closing delimiter that
ends the token.  The first closing delimiter is at `closeAt`. -/
def readDefaultAt? (closing body : Text) (defaultAt closeAt : Nat) :
    Option (Option (Json × Nat)) := do
  let source ← body.slice? defaultAt closeAt
  match shortDefault? source with
  | some v => return some (v, closeAt)
  | none => longDefaultAt? closing body defaultAt

/-- The token that starts at an offset of the text and whose closing delimiter is at an offset of its
body, between the offsets at which it starts and stops. -/
def endAt? (d : Delimiters) (s : Text) (start stopAt : Nat) (cast : Cast) (path : Text)
    (fallback : Option Json) (expression : Text) :
    Option (Except Fault (Option (Nat × Nat × Token))) := do
  let stop := start + d.opening.byteLength + stopAt + d.closing.byteLength
  let written ← s.slice? start stop
  return .ok (some (start, stop, ⟨cast, path, fallback, expression, written⟩))

/-- The token with a default whose double bar is at an offset of its body. -/
def markedAt? (d : Delimiters) (s body : Text) (start pathAt markAt closeAt : Nat) (cast : Cast)
    (inner : Text) : Option (Except Fault (Option (Nat × Nat × Token))) := do
  let front ← body.slice? pathAt markAt
  let path := Text.trim front
  if path = [] then return .ok none
  else
    match ← readDefaultAt? d.closing body (markAt + defaultMark.byteLength) closeAt with
    | none => return .error (.badDefault (Text.trim inner))
    | some (v, stopAt) =>
      let expression ← body.slice? pathAt stopAt
      endAt? d s start stopAt cast path (some v) (Text.trim expression)

/-- The token whose opening delimiter starts at an offset of the text. -/
def readAt? (d : Delimiters) (s : Text) (start : Nat) :
    Option (Except Fault (Option (Nat × Nat × Token))) := do
  let body ← s.slice? (start + d.opening.byteLength) s.byteLength
  match Text.find? d.closing body with
  | none => return .ok none
  | some closeAt =>
    let declared ← Cast.splitTagAt? body
    let (cast, pathAt) := if declared.2 ≤ closeAt then declared else (.asIs, 0)
    let inner ← body.slice? pathAt closeAt
    match Text.find? defaultMark inner with
    | none =>
      let path := Text.trim inner
      if path = [] then return .ok none
      else endAt? d s start closeAt cast path none path
    | some markAt => markedAt? d s body start pathAt (pathAt + markAt) closeAt cast inner

end Token

/-! ## The declared type -/

namespace Cast

theorem ofTag?_of_mem {tag : Text} {c : Cast} (h : (tag, c) ∈ tags) :
    ofTag? tag = some c ∧ ':' ∉ tag ∧ ∃ x tag', tag = x :: tag' ∧ Text.isBlank x = false := by
  simp only [tags, List.mem_cons, List.not_mem_nil, or_false, Prod.mk.injEq] at h
  rcases h with ⟨rfl, rfl⟩ | ⟨rfl, rfl⟩ | ⟨rfl, rfl⟩ <;>
    exact ⟨by decide, by decide, _, _, rfl, by decide⟩

theorem mem_of_ofTag? {tag : Text} {c : Cast} (h : ofTag? tag = some c) : (tag, c) ∈ tags := by
  obtain ⟨before, after, heq, -⟩ := List.lookup_eq_some_iff.1 h
  rw [heq]
  simp

variable {content w tag inner : Text} {c : Cast}

theorem trimStart_tagged (blank : ∀ x ∈ w, Text.isBlank x = true) (h : (tag, c) ∈ tags)
    (inner : Text) : Text.trimStart (w ++ tag ++ ':' :: inner) = tag ++ ':' :: inner := by
  obtain ⟨-, -, x, tag', rfl, hx⟩ := ofTag?_of_mem h
  rw [List.append_assoc, Text.trimStart_append_of_blank blank]
  exact Text.trimStart_cons_of_not_isBlank _ hx

/-- A tag behind blank characters is split off. -/
theorem splitTag_tagged (blank : ∀ x ∈ w, Text.isBlank x = true) (h : (tag, c) ∈ tags)
    (inner : Text) : splitTag (w ++ tag ++ ':' :: inner) = (c, inner) := by
  rw [splitTag, trimStart_tagged blank h]
  simp only [tags, List.mem_cons, List.not_mem_nil, or_false, Prod.mk.injEq] at h
  rcases h with ⟨rfl, rfl⟩ | ⟨rfl, rfl⟩ | ⟨rfl, rfl⟩ <;> rfl

/-- What is split off is a tag behind blank characters, or nothing. -/
theorem splitTag_cases (content : Text) :
    (∃ w tag c inner, (∀ x ∈ w, Text.isBlank x = true) ∧ (tag, c) ∈ tags ∧
        content = w ++ tag ++ ':' :: inner) ∨ splitTag content = (asIs, content) := by
  obtain ⟨w, hw, blank, -⟩ := Text.exists_trimStart content
  cases hfound : tags.findSome? fun tag =>
      ((tag.1 ++ [':']).isPrefixOf? (Text.trimStart content)).map fun inner => (tag.2, inner) with
  | none => exact .inr (by rw [splitTag, hfound]; rfl)
  | some found =>
      obtain ⟨tag, htag, hmatch⟩ := List.exists_of_findSome?_eq_some hfound
      obtain ⟨inner, hinner, -⟩ := Option.map_eq_some_iff.1 hmatch
      refine .inl ⟨w, tag.1, tag.2, inner, blank, htag, ?_⟩
      rw [hw, Text.eq_append_of_isPrefixOf? hinner]
      simp only [List.append_assoc, List.singleton_append]

theorem splitTagAt?_tagged (blank : ∀ x ∈ w, Text.isBlank x = true) (h : (tag, c) ∈ tags)
    (more : Text) : splitTagAt? (w ++ tag ++ ':' :: more) =
      some (c, (w ++ tag ++ [':']).byteLength) := by
  obtain ⟨hc, colon, -⟩ := ofTag?_of_mem h
  have trimmed := trimStart_tagged blank h more
  have hbody : w ++ tag ++ ':' :: more = w ++ Text.trimStart (w ++ tag ++ ':' :: more) := by
    rw [trimmed, List.append_assoc]
  have split : Text.splitFirst? [':'] (tag ++ ':' :: more) = some (tag, more) := by
    rw [Text.splitFirst?_append_of_not_mem colon]
    simp [Text.splitFirst?, List.isPrefixOf?]
  have offset : (w ++ tag ++ [':']).byteLength = w.byteLength + tag.byteLength + 1 := by
    simp only [Text.byteLength_append, Text.byteLength_cons, Text.byteLength_nil]
    rfl
  rw [splitTagAt?, Text.byteLength_sub_trimStart hbody, Text.slice?_end hbody rfl, trimmed, offset]
  simp [split, hc]

/-- An offset behind the blank characters and behind them a tag, or none. -/
theorem splitTagAt?_cases (body : Text) :
    splitTagAt? body = some (asIs, 0) ∨
      ∃ w tag c more, (∀ x ∈ w, Text.isBlank x = true) ∧ (tag, c) ∈ tags ∧
        body = w ++ tag ++ ':' :: more := by
  obtain ⟨w, hw, blank, -⟩ := Text.exists_trimStart body
  have hslice := Text.slice?_end hw rfl
  cases hsplit : Text.splitFirst? [':'] (Text.trimStart body) with
  | none => exact .inl (by simp [splitTagAt?, Text.byteLength_sub_trimStart hw, hslice, hsplit])
  | some parts =>
      obtain ⟨tag, more⟩ := parts
      cases htag : ofTag? tag with
      | none =>
          exact .inl (by simp [splitTagAt?, Text.byteLength_sub_trimStart hw, hslice, hsplit, htag])
      | some c =>
          refine .inr ⟨w, tag, c, more, blank, mem_of_ofTag? htag, ?_⟩
          rw [hw, Text.eq_append_of_splitFirst? hsplit]
          simp only [List.append_assoc, List.singleton_append]

/-- **Up to the first closing delimiter the declared type is read at its offset.**  A tag that is
found only behind that delimiter does not count. -/
theorem exists_splitTagAt? (content more : Text) :
    ∃ declared tag, splitTagAt? (content ++ more) = some declared ∧
      content = tag ++ (splitTag content).2 ∧
      (if declared.2 ≤ content.byteLength then declared else (asIs, 0)) =
        ((splitTag content).1, tag.byteLength) := by
  rcases splitTag_cases content with ⟨w, tag, c, inner, blank, htag, rfl⟩ | untagged
  · refine ⟨(c, (w ++ tag ++ [':']).byteLength), w ++ tag ++ [':'], ?_, ?_, ?_⟩
    · rw [List.append_assoc, List.cons_append]
      exact splitTagAt?_tagged blank htag (inner ++ more)
    · rw [splitTag_tagged blank htag, List.append_assoc (w ++ tag), List.singleton_append]
    · rw [splitTag_tagged blank htag]
      refine if_pos ?_
      simp only [Text.byteLength_append, Text.byteLength_cons, Text.byteLength_nil]
      omega
  · rw [untagged]
    rcases splitTagAt?_cases (content ++ more) with hnone | ⟨w, tag, c, rest, blank, htag, hbody⟩
    · exact ⟨_, [], hnone, rfl, by simp⟩
    · refine ⟨_, [], by rw [hbody]; exact splitTagAt?_tagged blank htag rest, rfl, if_neg ?_⟩
      -- a tag within the content would have been split off
      intro hle
      have hprefix : w ++ tag ++ [':'] <+: content ++ more :=
        ⟨rest, by rw [hbody, List.append_assoc, List.singleton_append]⟩
      obtain ⟨inner, rfl⟩ := Text.prefix_of_byteLength_le hprefix (List.prefix_append _ _) hle
      rw [List.append_assoc, List.singleton_append, splitTag_tagged blank htag] at untagged
      have hlength := congrArg List.length (congrArg Prod.snd untagged)
      simp only [List.length_append, List.length_cons] at hlength
      omega

end Cast

namespace Token

/-! ## The default -/

variable {d : Delimiters} {closing body front rest : Text}

/-- **A value that is read from a text, and a closing delimiter behind it, are read at their
offsets.** -/
theorem longDefaultAt?_eq (hbody : body = front ++ rest) :
    longDefaultAt? closing body front.byteLength =
      some ((longDefault? closing rest).map fun found =>
        (found.1, (Text.before body (closing ++ found.2)).byteLength)) := by
  obtain ⟨w, hw, -⟩ := Text.exists_trimStart rest
  have hstream : body = (front ++ w) ++ Text.trimStart rest := by
    rw [hbody, List.append_assoc, ← hw]
  rw [longDefaultAt?, longDefault?, Text.slice?_end hbody rfl, Option.bind_eq_bind, Option.bind_some,
    Text.byteLength_sub_trimStart hw, ← Text.byteLength_append]
  dsimp only
  rw [Text.slice?_end hstream rfl, Option.bind_some]
  cases hfront : Json.readFront? (Text.trimStart rest) with
  | none => rfl
  | some found =>
      obtain ⟨v, left⟩ := found
      obtain ⟨taken, htaken⟩ := Json.leavesSuffix_readFront? hfront
      obtain ⟨w', hw', -⟩ := Text.exists_trimStart left
      have hconsumed : (Text.trimStart rest).byteLength - left.byteLength =
          Text.byteLength taken := by
        rw [← htaken, Text.byteLength_append, Nat.add_sub_cancel]
      have htail : body = (front ++ w ++ taken) ++ left := by
        rw [hstream, List.append_assoc (front ++ w), htaken]
      have hfound : body = (front ++ w ++ taken ++ w') ++ Text.trimStart left := by
        rw [htail, List.append_assoc (front ++ w ++ taken), ← hw']
      dsimp only
      rw [hconsumed, ← Text.byteLength_append, Text.slice?_end htail rfl, Option.bind_some,
        Text.byteLength_sub_trimStart hw', ← Text.byteLength_append, Text.slice?_end hfound rfl,
        Option.bind_some]
      cases hclosing : closing.isPrefixOf? (Text.trimStart left) with
      | none => rfl
      | some more =>
          rw [Text.eq_append_of_isPrefixOf? hclosing] at hfound
          rw [Option.map_some, Option.map_some, Option.map_some, hfound, Text.before_append]
          rfl

/-- **A default is read at its offset.** -/
theorem readDefaultAt?_eq {source after : Text} (hbody : body = front ++ source ++ closing ++ after) :
    readDefaultAt? closing body front.byteLength (front ++ source).byteLength =
      some ((readDefault? closing source after).map fun found =>
        (found.1, (Text.before body (closing ++ found.2)).byteLength)) := by
  have hsource : body.slice? front.byteLength (front ++ source).byteLength = some source :=
    Text.slice?_of_eq (hbody.trans (List.append_assoc _ _ _)) rfl (Text.byteLength_append _ _)
  rw [readDefaultAt?, readDefault?, hsource, Option.bind_eq_bind, Option.bind_some]
  cases shortDefault? source with
  | none => exact longDefaultAt?_eq (by simp only [hbody, List.append_assoc])
  | some v =>
      dsimp only
      rw [Option.map_some, hbody, List.append_assoc (front ++ source), Text.before_append]
      rfl

/-! ## The token -/

/-- The answer of the reader, with the offsets at which the token starts and stops. -/
def placedAt (before : Text) (answer : Except Fault (Option (Token × Text))) :
    Except Fault (Option (Nat × Nat × Token)) :=
  answer.map (Option.map fun found =>
    (before.byteLength, (before ++ found.1.written).byteLength, found.1))

variable {before content tag inner after : Text} {cast : Cast}

theorem endAt?_eq {path expression : Text} {fallback : Option Json}
    (hbody : body = content ++ d.closing ++ rest) :
    endAt? d (before ++ d.opening ++ body) before.byteLength content.byteLength cast path fallback
        expression =
      some (placedAt before (.ok (some
        (⟨cast, path, fallback, expression, d.opening ++ content ++ d.closing⟩, rest)))) := by
  have hwritten : (before ++ d.opening ++ body).slice? before.byteLength
      (before.byteLength + d.opening.byteLength + content.byteLength + d.closing.byteLength) =
        some (d.opening ++ content ++ d.closing) :=
    Text.slice?_of_eq (b := rest) (by rw [hbody]; simp only [List.append_assoc]) rfl
      (by simp only [Text.byteLength_append]; omega)
  rw [endAt?, hwritten, Option.bind_eq_bind, Option.bind_some]
  simp only [placedAt, Except.map, Option.map_some, Text.byteLength_append, Nat.add_assoc]
  rfl

/-- **A token with a default is read at its offset.** -/
theorem markedAt?_eq {source : Text} (hbody : body = content ++ d.closing ++ after)
    (tagged : content = tag ++ inner) (mark : inner = front ++ defaultMark ++ source) :
    markedAt? d (before ++ d.opening ++ body) body before.byteLength tag.byteLength
        (tag ++ front).byteLength content.byteLength cast inner =
      some (placedAt before (if Text.trim front = [] then .ok none else
        match readDefault? d.closing source after with
        | none => .error (.badDefault (Text.trim inner))
        | some (v, rest) => .ok (some (⟨cast, Text.trim front, some v,
            Text.trim (Text.before (inner ++ d.closing ++ after) (d.closing ++ rest)),
            d.opening ++ Text.before body rest⟩, rest)))) := by
  have hcontent : content = (tag ++ front ++ defaultMark) ++ source := by
    simp only [tagged, mark, List.append_assoc]
  have hfront : body.slice? tag.byteLength (tag ++ front).byteLength = some front :=
    Text.slice?_of_eq (b := defaultMark ++ source ++ d.closing ++ after)
      (by simp only [hbody, hcontent, List.append_assoc]) rfl (Text.byteLength_append _ _)
  have hdefault := readDefaultAt?_eq (hcontent ▸ hbody)
  rw [← hcontent] at hdefault
  rw [markedAt?, hfront, Option.bind_eq_bind, Option.bind_some]
  dsimp only
  split
  · rfl
  · rw [← Text.byteLength_append, hdefault, Option.bind_eq_bind, Option.bind_some]
    cases hread : readDefault? d.closing source after with
    | none => rfl
    | some found =>
        obtain ⟨v, rest⟩ := found
        obtain ⟨skipped, goesOn⟩ := exists_skipped hread
        obtain ⟨behind, hwhole⟩ := body_eq hbody tagged mark goesOn
        have hstop : Text.before body (d.closing ++ rest) =
            tag ++ front ++ defaultMark ++ skipped := by
          rw [hwhole, List.append_assoc _ d.closing, Text.before_append]
        have hwritten : Text.before body rest =
            tag ++ front ++ defaultMark ++ skipped ++ d.closing := by
          rw [hwhole, Text.before_append]
        have hexpression : body.slice? tag.byteLength
            (tag ++ front ++ defaultMark ++ skipped).byteLength =
              some (front ++ defaultMark ++ skipped) :=
          Text.slice?_of_eq (b := d.closing ++ rest)
            (by rw [hwhole]; simp only [List.append_assoc]) rfl
            (by simp only [Text.byteLength_append]; omega)
        rw [Option.map_some]
        dsimp only
        rw [hstop, hexpression, Option.bind_some, endAt?_eq hwhole, behind, Text.before_append,
          hwritten, List.append_assoc d.opening]

/-- **A token is read at its offset.**  No slice that is taken on the way is out of range or cuts a
character, whether there is a token, or none, or a fault. -/
theorem readAt?_eq (d : Delimiters) (before body : Text) :
    readAt? d (before ++ d.opening ++ body) before.byteLength =
      some (placedAt before (read? d body)) := by
  have hslice : (before ++ d.opening ++ body).slice? (before.byteLength + d.opening.byteLength)
      (before ++ d.opening ++ body).byteLength = some body :=
    Text.slice?_end rfl (Text.byteLength_append _ _).symm
  rw [readAt?, read?, hslice, Option.bind_eq_bind, Option.bind_some]
  cases first : Text.splitFirst? d.closing body with
  | none => rw [Text.find?_eq_none_of_splitFirst? first]; rfl
  | some parts =>
      obtain ⟨content, after⟩ := parts
      have hbody := Text.eq_append_of_splitFirst? first
      obtain ⟨declared, tag, hdeclared, tagged, hif⟩ :=
        Cast.exists_splitTagAt? content (d.closing ++ after)
      rw [← List.append_assoc, ← hbody] at hdeclared
      rw [Text.find?_eq_of_splitFirst? first]
      dsimp only
      rw [hdeclared, Option.bind_eq_bind, Option.bind_some, hif]
      generalize Cast.splitTag content = split at tagged
      obtain ⟨cast, inner⟩ := split
      dsimp only at tagged ⊢
      have hinner : body.slice? tag.byteLength content.byteLength = some inner :=
        Text.slice?_of_eq (b := d.closing ++ after)
          (by simp only [hbody, tagged, List.append_assoc]) rfl
          (by rw [tagged, Text.byteLength_append])
      rw [hinner, Option.bind_some]
      cases hmark : Text.splitFirst? defaultMark inner with
      | none =>
          rw [Text.find?_eq_none_of_splitFirst? hmark]
          dsimp only
          split
          · rfl
          · exact endAt?_eq hbody
      | some parts =>
          obtain ⟨front, source⟩ := parts
          rw [Text.find?_eq_of_splitFirst? hmark]
          dsimp only
          rw [← Text.byteLength_append]
          exact markedAt?_eq hbody tagged (Text.eq_append_of_splitFirst? hmark)

end Token

end Stencil
