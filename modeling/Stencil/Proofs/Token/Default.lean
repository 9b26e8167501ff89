import Stencil.Proofs.Json.ReadBack
import Stencil.Proofs.Token.Offsets

/-!
# The two ways of reading a default

A default is read as the document up to the first closing delimiter, and if that is none
as the value at the front of all the text behind the double bar.  Where both ways give a
value it is the same one, and the token ends at the same place, unless the closing
delimiter starts with a character that can be part of a number (`agree_of_longDefault?`).

A document is read in front of more text as it was read alone, if that text does not go
on with a character of numbers (`readFront?_append`).  An array, an object or a string
shows where it ends, and so does a word; only a number would go on.  What follows the
document of a default is blank, and then comes the closing delimiter.

So it does not matter in which order the two ways are tried (`readDefault?_eq_or`).
-/

set_option autoImplicit false

namespace Stencil

/-! ## A document in front of more text -/

namespace Json

variable {s more : Text} {v : Json}

theorem readNumber_append_of_ended (h : readNumber s = some (v, [])) (ended : Ended more) :
    readNumber (s ++ more) = some (v, more) := by
  obtain ⟨n, hn, heq⟩ := Option.map_eq_some_iff.1 h
  obtain ⟨rfl, hrest⟩ := Prod.mk.inj heq
  have chars : ∀ c ∈ s, isNumberChar c = true := List.dropWhile_eq_nil_iff.1 hrest
  obtain ⟨take, drop⟩ := takeWhile_append_of_ended chars ended
  rw [List.takeWhile_eq_self_iff.2 chars] at hn
  rw [readNumber, take, drop, hn]
  rfl

/-- A value that makes up a whole text is read in front of more text if that does not go on with a
character of numbers. -/
theorem readValue_append_of_ended (depth : Nat) (h : readValue (depth + 1) s = some (v, []))
    (ended : Ended more) : readValue (depth + 1) (s ++ more) = some (v, more) := by
  cases s with
  | nil => cases h
  | cons c s =>
      cases closed : isSelfClosing c with
      | true => exact readValue_append (local_readValue depth) h (.inl closed) more
      | false =>
          simp only [isSelfClosing, Bool.or_eq_false_iff, beq_eq_false_iff_ne] at closed
          obtain ⟨⟨hquote, harr⟩, hobj⟩ := closed
          rw [readValue_eq_readScalar harr hobj, readScalar_of_ne hquote] at h
          rw [List.cons_append, readValue_eq_readScalar harr hobj, readScalar_of_ne hquote,
            ← List.cons_append]
          rcases Option.or_eq_some_iff.1 h with hword | ⟨-, hnumber⟩
          · rw [steady_readWord more hword]
            rfl
          · obtain ⟨c', s', heq, hchar⟩ := exists_cons_of_readNumber hnumber
            cases heq
            rw [List.cons_append, readWord_eq_none hchar, ← List.cons_append,
              readNumber_append_of_ended hnumber ended]
            rfl

/-- **At the front of a longer text a document is read as it is read alone, or not at all**, if the
text does not go on with a character of numbers. -/
theorem readFront?_append (hs : s.Trimmed) (h : parse? s = some v) (ended : Ended more) :
    readFront? (s ++ more) =
      if s.head?.any isSelfClosing ∨ isEnd more then some (v, more) else none := by
  have hread : readValue maxDepth (s ++ more) = some (v, more) :=
    readValue_append_of_ended 126 (readValue_of_parse? hs h) ended
  have hskip := skipSpace_of_trimmed hs
  obtain ⟨c, s', rfl, -⟩ := hs.first
  have hskip' : skipSpace (c :: s' ++ more) = c :: s' ++ more := skipSpace_append hskip more
  rw [readFront?, hskip', hread]
  rfl

/-- Blank characters are no characters of numbers. -/
theorem ended_append_of_blank {w rest : Text} (blank : ∀ c ∈ w, Text.isBlank c = true)
    (ended : Ended rest) : Ended (w ++ rest) := by
  cases w with
  | nil => exact ended
  | cons c w =>
      refine ended_cons ?_ _
      rw [Bool.eq_false_iff]
      intro hc
      have hblank := not_isBlank_of_isNumberChar hc
      rw [blank c List.mem_cons_self] at hblank
      cases hblank

end Json

/-! ## A default -/

namespace Token

variable {c : Char} {mark source after rest : Text} {v v' : Json}

/-- A closing delimiter that blank characters are skipped in front of stands at the front of the text
already. -/
theorem eq_of_trimStart_closing (h : Text.trimStart (c :: mark ++ after) = c :: mark ++ rest) :
    rest = after := by
  cases blank : Text.isBlank c with
  | false =>
      rw [List.cons_append, Text.trimStart_cons_of_not_isBlank _ blank] at h
      exact (List.append_cancel_left (List.cons.inj h).2).symm
  | true =>
      -- nothing blank is left at the front
      obtain ⟨c', tail, htail, hc'⟩ := Text.exists_cons_of_trimStart
        (s := c :: mark ++ after) (by rw [h]; exact List.cons_ne_nil _ _)
      rw [h] at htail
      cases htail
      rw [blank] at hc'
      cases hc'

/-- **Where both ways of reading a default give a value, it is the same value, and the same text
follows the token.** -/
theorem agree_of_longDefault? (stops : Json.isNumberChar c = false)
    (short : shortDefault? source = some v)
    (long : longDefault? (c :: mark) (source ++ c :: mark ++ after) = some (v', rest)) :
    v' = v ∧ rest = after := by
  obtain ⟨w, w', hsource, blank, blank'⟩ := Text.exists_trim source
  have nonempty : Text.trim source ≠ [] := by
    intro hnil
    rw [shortDefault?, hnil] at short
    cases short
  have trimmed := Text.trimmed_trim nonempty
  -- the document of the default, the blank characters behind it and the closing delimiter
  have ended : Json.Ended (w' ++ (c :: mark ++ after)) :=
    Json.ended_append_of_blank blank' (Json.ended_cons stops _)
  have hstart : Text.trimStart (source ++ c :: mark ++ after) =
      Text.trim source ++ (w' ++ (c :: mark ++ after)) := by
    conv_lhs => rw [hsource]
    simp only [List.append_assoc]
    rw [Text.trimStart_append_of_blank blank, trimmed.trimStart_append]
  rw [longDefault?, hstart, Json.readFront?_append trimmed short ended] at long
  split at long
  · cases long
  · next found tail hfront =>
    split at hfront
    · cases hfront
      obtain ⟨rest', hclosing, heq⟩ := Option.map_eq_some_iff.1 long
      cases heq
      rw [Text.trimStart_append_of_blank blank'] at hclosing
      exact ⟨rfl, eq_of_trimStart_closing (Text.eq_append_of_isPrefixOf? hclosing)⟩
    · cases hfront

/-- The order in which the two ways are tried does not matter. -/
theorem readDefault?_eq_or (stops : Json.isNumberChar c = false) (source after : Text) :
    readDefault? (c :: mark) source after =
      (longDefault? (c :: mark) (source ++ c :: mark ++ after)).or
        ((shortDefault? source).map fun v => (v, after)) := by
  unfold readDefault?
  cases short : shortDefault? source with
  | none => exact (Option.or_none).symm
  | some v =>
      cases long : longDefault? (c :: mark) (source ++ c :: mark ++ after) with
      | none => rfl
      | some found =>
          obtain ⟨rfl, rfl⟩ := agree_of_longDefault? stops short long
          rfl

/-- The text around two slices that follow each other. -/
theorem exists_slices {body closing : Text} {defaultAt closeAt : Nat}
    (hsource : body.slice? defaultAt closeAt = some source)
    (hclosing : body.slice? closeAt (closeAt + closing.byteLength) = some closing) :
    ∃ front after, body = front ++ source ++ closing ++ after ∧ defaultAt = front.byteLength ∧
      closeAt = (front ++ source).byteLength := by
  obtain ⟨front, behind, hbody, hdefault, hclose⟩ := Text.slice?_eq_some_iff.1 hsource
  obtain ⟨before, after, hbody', hclose', -⟩ := Text.slice?_eq_some_iff.1 hclosing
  have hprefix : front ++ source <+: body := ⟨behind, hbody.symm⟩
  have hprefix' : before <+: body := ⟨closing ++ after, by rw [hbody', List.append_assoc]⟩
  have same : (front ++ source).byteLength = before.byteLength := hclose.symm.trans hclose'
  have hle := Text.prefix_of_byteLength_le hprefix hprefix' same.le
  have hge := Text.prefix_of_byteLength_le hprefix' hprefix same.ge
  have heq : front ++ source = before :=
    hle.eq_of_length (Nat.le_antisymm hle.length_le hge.length_le)
  exact ⟨front, after, by rw [heq, hbody'], hdefault, hclose⟩

/-- **The two ways of reading a default agree** if the closing delimiter does not start with a
character of numbers.  If the text from an offset of the body up to a closing delimiter, the first
one or another, is a document around which only blank characters stand, and a value that is read from
that offset on has a closing delimiter behind it, then it is the same value, and the same closing
delimiter.  So a default is the same if it is read from all of the text first, and up to the first
closing delimiter only if that gives none. -/
theorem defaults_agree (mark : Text) (stops : Json.isNumberChar c = false) :
    (∀ (body source : Text) (defaultAt closeAt stopAt : Nat) (v v' : Json),
        body.slice? defaultAt closeAt = some source →
        body.slice? closeAt (closeAt + Text.byteLength (c :: mark)) = some (c :: mark) →
        shortDefault? source = some v →
        longDefaultAt? (c :: mark) body defaultAt = some (some (v', stopAt)) →
        v' = v ∧ stopAt = closeAt) ∧
      ∀ source after : Text, readDefault? (c :: mark) source after =
        (longDefault? (c :: mark) (source ++ c :: mark ++ after)).or
          ((shortDefault? source).map fun v => (v, after)) := by
  refine ⟨fun body source defaultAt closeAt stopAt v v' hsource hclosing short long => ?_,
    readDefault?_eq_or stops⟩
  obtain ⟨front, after, hbody, rfl, rfl⟩ := exists_slices hsource hclosing
  have hfront : body = front ++ (source ++ c :: mark ++ after) := by
    rw [hbody]
    simp only [List.append_assoc]
  rw [longDefaultAt?_eq hfront, Option.some.injEq, Option.map_eq_some_iff] at long
  obtain ⟨⟨w, rest⟩, hlong, heq⟩ := long
  obtain ⟨rfl, rfl⟩ := agree_of_longDefault? stops short hlong
  cases heq
  rw [hbody, List.append_assoc (front ++ source), Text.before_append]
  exact ⟨rfl, rfl⟩

/-- The number seven. -/
def seven : Number := .int 7 (by decide) (by decide)

/-- A body in which that number stands behind a no-break space and in front of a space. -/
def spacedBody : Text := "x ||\u00a07 \x7d\x7d \x7d\x7d".toList

theorem parse?_seven : Json.parse? ['7'] = some (.num seven) := by
  have digits : Number.ofText? seven.toText = some seven := by decide +kernel
  exact Json.parse?_render (v := .num seven) digits

theorem longDefaultAt?_spacedBody :
    longDefaultAt? ['\x7d', '\x7d'] spacedBody 4 = some (some (.num seven, 8)) := by
  have body : spacedBody = "x ||".toList ++ "\u00a07 \x7d\x7d \x7d\x7d".toList := by decide
  have start : Text.trimStart "\u00a07 \x7d\x7d \x7d\x7d".toList =
      ['7'] ++ " \x7d\x7d \x7d\x7d".toList := by decide
  have trimmed : Text.Trimmed ['7'] := Text.trimmed_of_trim (by decide) (by decide)
  have ended : Json.Ended " \x7d\x7d \x7d\x7d".toList := Json.ended_cons (by decide) _
  have front : Json.readFront? (['7'] ++ " \x7d\x7d \x7d\x7d".toList) =
      some (.num seven, " \x7d\x7d \x7d\x7d".toList) := by
    rw [Json.readFront?_append trimmed parse?_seven ended]
    exact if_pos (by decide)
  refine (longDefaultAt?_eq body).trans ?_
  rw [longDefault?, start, front]
  rfl

theorem defaults_agree_spacedBody :
    Json.isNumberChar '\x7d' = false ∧
      spacedBody.slice? 4 8 = some "\u00a07 ".toList ∧
      spacedBody.slice? 8 10 = some ['\x7d', '\x7d'] ∧
      shortDefault? "\u00a07 ".toList = some (.num seven) ∧
      ∃ v stopAt, longDefaultAt? ['\x7d', '\x7d'] spacedBody 4 = some (some (v, stopAt)) ∧
        v = .num seven ∧ stopAt = 8 := by
  have stops : Json.isNumberChar '\x7d' = false := by decide
  have hsource : spacedBody.slice? 4 8 = some "\u00a07 ".toList := by decide
  have hclosing : spacedBody.slice? 8 10 = some ['\x7d', '\x7d'] := by decide
  have short : shortDefault? "\u00a07 ".toList = some (.num seven) := parse?_seven
  obtain ⟨agree, -⟩ := defaults_agree ['\x7d'] stops
  exact ⟨stops, hsource, hclosing, short, _, _, longDefaultAt?_spacedBody,
    agree _ _ _ _ _ _ _ hsource hclosing short longDefaultAt?_spacedBody⟩

end Token

end Stencil
