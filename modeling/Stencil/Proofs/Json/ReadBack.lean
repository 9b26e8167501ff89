import Stencil.Proofs.Json.Readable
import Stencil.Proofs.Json.Step

/-!
# Values that are read back from their texts

A text that is a document need not denote the value that it was written for.  Of a key
that stands twice in an object only one member is read, and a number is read back only
if its text denotes that number.  Nothing else is lost, so a value without such keys and
such numbers, and not too deep for the reader, is read back as it was
(`parse?_render`), with the members of its objects in their order.

As for the values that can be read at all (`Takes`), the argument goes along the readers:
each of them reads its value from the front of any text that starts with what was
written for it (`Reads`).
-/

set_option autoImplicit false

namespace Stencil.Json

variable {α : Type}

/-- The reader reads this value from the text, whatever follows it. -/
def Reads (r : Reader α) (text : Text) (x : α) : Prop :=
  ∀ rest, Ended rest → r (text ++ rest) = some (x, rest)

/-! ## Sequences -/

section Sequence

variable {element : Reader α} {close : Char} {written : α → Text} {xs : List α}

theorem readMore_written (hclose : IsClose close)
    (h : ∀ x ∈ xs, Opens close (written x) ∧ Reads element (written x) x)
    (rounds : Nat) (hrounds : xs.length < rounds) (rest : Text) :
    readMore element close rounds ((xs.flatMap fun x => ',' :: written x) ++ close :: rest) =
      some (xs, rest) := by
  induction xs generalizing rounds with
  | nil =>
      obtain ⟨rounds, rfl⟩ := Nat.exists_eq_add_of_lt hrounds
      exact readMore_close hclose _ rest
  | cons x xs ih =>
      obtain ⟨⟨opens, reads⟩, hxs⟩ := List.forall_mem_cons.1 h
      obtain ⟨rounds, rfl⟩ := Nat.exists_eq_add_of_lt hrounds
      have more := ih hxs ((x :: xs).length + rounds) (by simp; omega)
      rw [List.flatMap_cons, List.cons_append, List.cons_append, List.append_assoc,
        readMore_comma hclose opens, reads _ (ended_more written xs hclose rest),
        Option.bind_eq_bind, Option.bind_some, more]
      rfl

/-- **A sequence is read back if each of its elements is.** -/
theorem reads_readSequence (hclose : IsClose close) {x : α}
    (h : ∀ x' ∈ x :: xs, Opens close (written x') ∧ Reads element (written x') x') :
    Reads (readSequence element close)
      (written x ++ (xs.flatMap fun x => ',' :: written x) ++ [close]) (x :: xs) := by
  intro rest _
  obtain ⟨⟨opens, reads⟩, hxs⟩ := List.forall_mem_cons.1 h
  have more := readMore_written hclose hxs _ (length_lt_more written xs close rest) rest
  rw [List.append_assoc, List.append_assoc, List.singleton_append, readSequence_of_opens opens,
    reads _ (ended_more written xs hclose rest), Option.bind_eq_bind, Option.bind_some, more]
  rfl

end Sequence

/-! ## Members -/

theorem putKey_of_not_mem {k : String} {fs : List (String × Json)} (v : Json)
    (h : k ∉ fs.map Prod.fst) : putKey k v fs = fs ++ [(k, v)] := by
  induction fs with
  | nil => rfl
  | cons f fs ih =>
      rw [List.map_cons, List.mem_cons, not_or] at h
      rw [putKey, if_neg (Ne.symm h.1), ih h.2, List.cons_append]

/-- Setting keys that are all different, and that were not there, appends the members. -/
theorem foldl_putKey (fs : List (String × Json)) {gs : List (String × Json)}
    (h : ((fs ++ gs).map Prod.fst).Nodup) :
    gs.foldl (fun fs m => putKey m.1 m.2 fs) fs = fs ++ gs := by
  induction gs generalizing fs with
  | nil => exact (List.append_nil fs).symm
  | cons g gs ih =>
      have absent : g.1 ∉ fs.map Prod.fst := by
        rw [List.map_append, List.nodup_append] at h
        exact fun hmem => h.2.2 _ hmem _ (List.mem_map_of_mem List.mem_cons_self) rfl
      rw [List.append_cons] at h ⊢
      rw [List.foldl_cons, putKey_of_not_mem g.2 absent, ih _ h]

/-- Members whose keys are all different make up an object as they are. -/
theorem ofMembers_of_nodup {fs : List (String × Json)} (h : (fs.map Prod.fst).Nodup) :
    ofMembers fs = fs :=
  foldl_putKey [] h

/-! ## Values -/

mutual

/-- A reader that goes so deep reads the value back from its text. -/
def ReadsBack : Json → Nat → Prop
  | num n, _ => Number.ofText? n.toText = some n
  | arr _, 0 | obj _, 0 => False
  | arr xs, depth + 1 => ReadsBackItems xs depth
  | obj fs, depth + 1 => (fs.map Prod.fst).Nodup ∧ ReadsBackFields fs depth
  | _, _ => True

/-- A reader that goes so deep reads the elements back from their texts. -/
def ReadsBackItems : List Json → Nat → Prop
  | [], _ => True
  | x :: xs, depth => ReadsBack x depth ∧ ReadsBackItems xs depth

/-- A reader that goes so deep reads the values of the members back from their texts. -/
def ReadsBackFields : List (String × Json) → Nat → Prop
  | [], _ => True
  | (_, v) :: fs, depth => ReadsBack v depth ∧ ReadsBackFields fs depth

end

theorem readsBackItems_iff {xs : List Json} {depth : Nat} :
    ReadsBackItems xs depth ↔ ∀ x ∈ xs, x.ReadsBack depth := by
  induction xs with
  | nil => simp [ReadsBackItems]
  | cons x xs ih => simp [ReadsBackItems, ih]

theorem readsBackFields_iff {fs : List (String × Json)} {depth : Nat} :
    ReadsBackFields fs depth ↔ ∀ f ∈ fs, f.2.ReadsBack depth := by
  induction fs with
  | nil => simp [ReadsBackFields]
  | cons f fs ih => simp [ReadsBackFields, ih]

theorem reads_renderArr {xs : List Json} {depth : Nat}
    (h : ∀ x ∈ xs, Reads (readValue depth) x.render x) :
    Reads (readSequence (readValue depth) ']') (arr xs).render.tail xs := by
  cases xs with
  | nil => exact fun rest _ => readSequence_close isClose_bracket rest
  | cons x xs =>
      rw [tail_render_arr]
      exact reads_readSequence isClose_bracket fun x' hx' => ⟨opens_render x', h x' hx'⟩

theorem reads_renderObj {fs : List (String × Json)} {depth : Nat}
    (h : ∀ f ∈ fs, Reads (readValue depth) f.2.render f.2) :
    Reads (readSequence (readMember (readValue depth)) '\x7d') (obj fs).render.tail fs := by
  have member : ∀ f ∈ fs, Reads (readMember (readValue depth)) (renderMember f) f := by
    intro f hf rest ended
    rw [readMember, readMemberBy_renderMember, h f hf rest ended]
    rfl
  cases fs with
  | nil => exact fun rest _ => readSequence_close isClose_brace rest
  | cons f fs =>
      rw [tail_render_obj]
      exact reads_readSequence isClose_brace fun f' hf' => ⟨opens_renderMember f', member f' hf'⟩

/-- **From the front of a text that starts with its own, a value that is read back is read as it
was.** -/
theorem reads_render {v : Json} {depth : Nat} (h : v.ReadsBack depth) :
    Reads (readValue depth) v.render v := by
  induction v using memberInduction generalizing depth with
  | null => exact fun rest _ => readValue_word (by simp [words, render]) rest depth
  | bool b =>
      intro rest _
      cases b with
      | true => exact readValue_word (by simp [words, render]) rest depth
      | false => exact readValue_word (by simp [words, render]) rest depth
  | num n =>
      intro rest ended
      rw [render, readValue_number n ended, show Number.ofText? n.toText = some n from h]
      rfl
  | str s =>
      intro rest _
      rw [render, readValue_quote, String.ofList_toList]
  | arr xs ih =>
      intro rest ended
      cases depth with
      | zero => exact False.elim h
      | succ depth =>
          have items := reads_renderArr fun x hx => ih x hx (readsBackItems_iff.1 h x hx)
          rw [render_arr_eq, List.cons_append]
          exact Option.map_eq_some_iff.2 ⟨_, items rest ended, rfl⟩
  | obj fs ih =>
      intro rest ended
      cases depth with
      | zero => exact False.elim h
      | succ depth =>
          obtain ⟨nodup, fields⟩ := h
          have members := reads_renderObj fun f hf => ih f hf (readsBackFields_iff.1 fields f hf)
          rw [render_obj_eq, List.cons_append]
          exact Option.map_eq_some_iff.2
            ⟨_, members rest ended, by rw [ofMembers_of_nodup nodup]⟩

/-- **A document is read back from its text.** -/
theorem parse?_render {v : Json} (h : v.ReadsBack maxDepth) : parse? v.render = some v := by
  have read := reads_render h [] nofun
  have skip := skipSpace_render v []
  rw [List.append_nil] at read skip
  rw [parse?, skip, read]
  rfl

end Stencil.Json
