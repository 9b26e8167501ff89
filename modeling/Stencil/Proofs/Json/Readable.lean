import Stencil.Proofs.Json.Congruence
import Stencil.Proofs.Json.FixedText
import Stencil.Proofs.Json.Quoted
import Stencil.Proofs.Json.Render

/-!
# Which values can be read back from their texts

Not every value can be read back from its text.  A reader goes only so deep, and the text
of a number has to be one that denotes a number.  Nothing else can go wrong: strings
are always read back, and the marks between the parts are those that the reader looks
for.  So a value is read from the front of any text that starts with its own exactly if
it is `Readable` (`takes_render`), and its text is a document exactly if it is readable at
the depth where documents start (`exists_parse?_render_iff`).

Whether a value is readable does not depend on the order of members
(`readable_of_same`).  So the texts of values that are the same, different as they may be,
are both documents or neither is (`Same.exists_parse?_iff`).

A reader is described here by the text that it takes: whatever follows, so long as it
does not continue a number, is what the reader leaves (`Takes`).
-/

set_option autoImplicit false

namespace Stencil.Json

variable {α β : Type}

/-! ## Texts behind each other -/

/-- The text does not start with a character of numbers. -/
def Ended (rest : Text) : Prop :=
  ∀ c ∈ rest.head?, isNumberChar c = false

theorem ended_cons {c : Char} (h : isNumberChar c = false) (rest : Text) : Ended (c :: rest) := by
  intro c' hc'
  cases hc'
  exact h

/-- There is an answer exactly if the condition holds, and then this is what is left. -/
def Leaves (rest : Text) (p : Prop) (answer : Option (α × Text)) : Prop :=
  (p ∧ ∃ x, answer = some (x, rest)) ∨ ¬ p ∧ answer = none

/-- The reader takes the text, whatever follows it, exactly if the condition holds. -/
def Takes (r : Reader α) (text : Text) (p : Prop) : Prop :=
  ∀ rest, Ended rest → Leaves rest p (r (text ++ rest))

theorem Leaves.map {p : Prop} {rest : Text} {answer : Option (α × Text)} (h : Leaves rest p answer)
    (f : α → β) : Leaves rest p (answer.map fun parts => (f parts.1, parts.2)) := by
  rcases h with ⟨hp, x, rfl⟩ | ⟨hp, rfl⟩
  · exact .inl ⟨hp, _, rfl⟩
  · exact .inr ⟨hp, rfl⟩

/-- Two readers behind each other take the two texts. -/
theorem Leaves.bind {γ : Type} {p q : Prop} {rest rest' : Text} {answer : Option (α × Text)}
    {next : α × Text → Option (β × Text)} {f : α → β → γ} (h : Leaves rest p answer)
    (hnext : ∀ x, Leaves rest' q (next (x, rest))) :
    Leaves rest' (p ∧ q) (do let a ← answer; let b ← next a; return (f a.1 b.1, b.2)) := by
  rcases h with ⟨hp, x, rfl⟩ | ⟨hp, rfl⟩
  · rcases hnext x with ⟨hq, y, hy⟩ | ⟨hq, hnone⟩
    · exact .inl ⟨⟨hp, hq⟩, f x y, by simp [hy]⟩
    · exact .inr ⟨fun h => hq h.2, by simp [hnone]⟩
  · exact .inr ⟨fun h => hp h.1, rfl⟩

theorem Leaves.iff {p q : Prop} {rest : Text} {answer : Option (α × Text)}
    (h : Leaves rest p answer) (hpq : p ↔ q) : Leaves rest q answer := by
  rwa [← propext hpq]

/-! ## Sequences -/

/-- A character that closes a sequence. -/
structure IsClose (close : Char) : Prop where
  notNumber : isNumberChar close = false
  notSpace : close.isWhitespace = false
  notComma : close ≠ ','

/-- An element with such a text can be the first of a sequence. -/
def Opens (close : Char) (text : Text) : Prop :=
  ∃ c s, text = c :: s ∧ c.isWhitespace = false ∧ c ≠ close

theorem skipSpace_cons {c : Char} (h : c.isWhitespace = false) (s : Text) :
    skipSpace (c :: s) = c :: s := by
  rw [skipSpace, List.dropWhile_cons, h]
  rfl

section Sequence

variable {element : Reader α} {close : Char} {written : β → Text} {good : β → Prop} {xs : List β}

theorem length_le_flatMap (written : β → Text) (xs : List β) :
    xs.length ≤ (xs.flatMap fun x => ',' :: written x).length := by
  induction xs with
  | nil => exact Nat.zero_le _
  | cons x xs ih =>
      simp only [List.flatMap_cons, List.length_append, List.length_cons]
      omega

theorem ended_more (written : β → Text) (xs : List β) (hclose : IsClose close) (rest : Text) :
    Ended ((xs.flatMap fun x => ',' :: written x) ++ close :: rest) := by
  cases xs with
  | nil => exact ended_cons hclose.notNumber rest
  | cons x xs => exact ended_cons rfl _

/-- The round in which a sequence is closed. -/
theorem readMore_close (hclose : IsClose close) (rounds : Nat) (rest : Text) :
    readMore element close (rounds + 1) (close :: rest) = some ([], rest) := by
  rw [readMore, skipSpace_cons hclose.notSpace]
  exact if_pos rfl

/-- A round in which an element is read. -/
theorem readMore_comma (hclose : IsClose close) {text : Text} (opens : Opens close text)
    (rounds : Nat) (rest : Text) :
    readMore element close (rounds + 1) (',' :: (text ++ rest)) = (do
      let first ← element (text ++ rest)
      let others ← readMore element close rounds first.2
      return (first.1 :: others.1, others.2)) := by
  obtain ⟨c, s, rfl, hspace, -⟩ := opens
  rw [readMore, skipSpace_cons (by rfl)]
  simp only [if_neg hclose.notComma.symm, if_true, List.cons_append, skipSpace_cons hspace]

theorem readSequence_close (hclose : IsClose close) (rest : Text) :
    readSequence element close (close :: rest) = some ([], rest) := by
  rw [readSequence, skipSpace_cons hclose.notSpace]
  exact if_pos rfl

theorem readSequence_of_opens {text : Text} (opens : Opens close text) (rest : Text) :
    readSequence element close (text ++ rest) = (do
      let first ← element (text ++ rest)
      let others ← readMore element close first.2.length first.2
      return (first.1 :: others.1, others.2)) := by
  obtain ⟨c, s, rfl, hspace, hne⟩ := opens
  rw [List.cons_append, readSequence, skipSpace_cons hspace]
  simp only [if_neg hne]

/-- The elements after the first one are read if each of them is. -/
theorem leaves_readMore (hclose : IsClose close)
    (h : ∀ x ∈ xs, Opens close (written x) ∧ Takes element (written x) (good x))
    (rounds : Nat) (hrounds : xs.length < rounds) (rest : Text) :
    Leaves rest (∀ x ∈ xs, good x) (readMore element close rounds
      ((xs.flatMap fun x => ',' :: written x) ++ close :: rest)) := by
  induction xs generalizing rounds with
  | nil =>
      obtain ⟨rounds, rfl⟩ := Nat.exists_eq_add_of_lt hrounds
      exact .inl ⟨List.forall_mem_nil _, [], readMore_close hclose _ rest⟩
  | cons x xs ih =>
      obtain ⟨⟨opens, takes⟩, hxs⟩ := List.forall_mem_cons.1 h
      obtain ⟨rounds, rfl⟩ := Nat.exists_eq_add_of_lt hrounds
      have more := ih hxs ((x :: xs).length + rounds) (by simp; omega)
      have first := takes _ (ended_more written xs hclose rest)
      rw [List.flatMap_cons, List.cons_append, List.cons_append, List.append_assoc,
        readMore_comma hclose opens]
      exact (first.bind fun _ => more).iff List.forall_mem_cons.symm

/-- Behind the first element there are enough characters for all rounds. -/
theorem length_lt_more (written : β → Text) (xs : List β) (close : Char) (rest : Text) :
    xs.length < ((xs.flatMap fun x => ',' :: written x) ++ close :: rest).length := by
  have hle := length_le_flatMap written xs
  simp only [List.length_append, List.length_cons]
  omega

/-- **A sequence is read if each of its elements is.** -/
theorem takes_readSequence (hclose : IsClose close) {x : β}
    (h : ∀ x' ∈ x :: xs, Opens close (written x') ∧ Takes element (written x') (good x')) :
    Takes (readSequence element close)
      (written x ++ (xs.flatMap fun x => ',' :: written x) ++ [close])
      (∀ x' ∈ x :: xs, good x') := by
  intro rest _
  obtain ⟨⟨opens, takes⟩, hxs⟩ := List.forall_mem_cons.1 h
  have more := leaves_readMore hclose hxs _ (length_lt_more written xs close rest) rest
  have first := takes _ (ended_more written xs hclose rest)
  rw [List.append_assoc, List.append_assoc, List.singleton_append, readSequence_of_opens opens]
  exact (first.bind fun _ => more).iff List.forall_mem_cons.symm

/-- A sequence without elements is read. -/
theorem takes_readSequence_nil (hclose : IsClose close) {p : Prop} (hp : p) :
    Takes (readSequence element close) [close] p :=
  fun rest _ => .inl ⟨hp, [], readSequence_close hclose rest⟩

end Sequence

/-! ## Values -/

mutual

/-- A reader that goes so deep can read the text of the value. -/
def Readable : Json → Nat → Prop
  | num n, _ => (Number.ofText? n.toText).isSome = true
  | arr _, 0 | obj _, 0 => False
  | arr xs, depth + 1 => ReadableItems xs depth
  | obj fs, depth + 1 => ReadableFields fs depth
  | _, _ => True

/-- A reader that goes so deep can read the texts of the elements. -/
def ReadableItems : List Json → Nat → Prop
  | [], _ => True
  | x :: xs, depth => Readable x depth ∧ ReadableItems xs depth

/-- A reader that goes so deep can read the texts of the members. -/
def ReadableFields : List (String × Json) → Nat → Prop
  | [], _ => True
  | (_, v) :: fs, depth => Readable v depth ∧ ReadableFields fs depth

end

theorem readableItems_iff {xs : List Json} {depth : Nat} :
    ReadableItems xs depth ↔ ∀ x ∈ xs, x.Readable depth := by
  induction xs with
  | nil => simp [ReadableItems]
  | cons x xs ih => simp [ReadableItems, ih]

theorem readableFields_iff {fs : List (String × Json)} {depth : Nat} :
    ReadableFields fs depth ↔ ∀ f ∈ fs, f.2.Readable depth := by
  induction fs with
  | nil => simp [ReadableFields]
  | cons f fs ih => simp [ReadableFields, ih]

theorem renderItems_eq (xs : List Json) :
    renderItems xs = (xs.flatMap fun x => ',' :: render x) ++ [']'] := by
  induction xs with
  | nil => rfl
  | cons x xs ih => simp [renderItems, ih]

/-- The text of a member. -/
def renderMember (f : String × Json) : Text :=
  Quoted.quote f.1.toList ++ ':' :: f.2.render

theorem renderFields_eq (fs : List (String × Json)) :
    renderFields fs = (fs.flatMap fun f => ',' :: renderMember f) ++ ['\x7d'] := by
  induction fs with
  | nil => rfl
  | cons f fs ih => simp [renderFields, renderMember, ih]

/-- A value with such a beginning is read without its depth. -/
theorem readValue_eq_readScalar {c : Char} (harr : c ≠ '[') (hobj : c ≠ '\x7b') (depth : Nat)
    (s : Text) : readValue depth (c :: s) = readScalar (c :: s) := by
  cases depth with
  | zero => rfl
  | succ depth => exact readValue_of_ne harr hobj s

/-- A written string is read at every depth, whatever follows it. -/
theorem readValue_quote (s rest : Text) (depth : Nat) :
    readValue depth (Quoted.quote s ++ rest) = some (str (String.ofList s), rest) := by
  rw [Quoted.quote, List.cons_append, List.cons_append, List.append_assoc, List.singleton_append,
    readValue_eq_readScalar (by decide) (by decide), readScalar, readString, Quoted.read_escape]
  rfl

theorem takes_quote (s : Text) (depth : Nat) : Takes (readValue depth) (Quoted.quote s) True :=
  fun rest _ => .inl ⟨trivial, _, readValue_quote s rest depth⟩

/-- A word is read at every depth, whatever follows it. -/
theorem readValue_word {word : Text} {v : Json} (h : (word, v) ∈ words) (rest : Text)
    (depth : Nat) : readValue depth (word ++ rest) = some (v, rest) := by
  have read : ∀ c s, word = c :: s → c ≠ '"' → c ≠ '[' → c ≠ '\x7b' →
      readValue depth (word ++ rest) = some (v, rest) := by
    intro c s hs hquote harr hobj
    have found := readWord_append h rest
    rw [hs, List.cons_append] at found ⊢
    rw [readValue_eq_readScalar harr hobj, readScalar_of_ne hquote, found]
    rfl
  simp only [words, List.mem_cons, List.not_mem_nil, or_false, Prod.mk.injEq] at h
  rcases h with ⟨rfl, -⟩ | ⟨rfl, -⟩ | ⟨rfl, -⟩
  all_goals exact read _ _ rfl (by decide) (by decide) (by decide)

theorem takes_word {word : Text} {v : Json} (h : (word, v) ∈ words) (depth : Nat) :
    Takes (readValue depth) word True :=
  fun rest _ => .inl ⟨trivial, v, readValue_word h rest depth⟩

theorem takeWhile_append_of_ended {s rest : Text} (hs : ∀ c ∈ s, isNumberChar c = true)
    (ended : Ended rest) :
    (s ++ rest).takeWhile isNumberChar = s ∧ (s ++ rest).dropWhile isNumberChar = rest := by
  have hrest : rest.takeWhile isNumberChar = [] ∧ rest.dropWhile isNumberChar = rest := by
    cases rest with
    | nil => exact ⟨rfl, rfl⟩
    | cons c rest =>
        rw [List.takeWhile_cons, List.dropWhile_cons, ended c rfl]
        exact ⟨rfl, rfl⟩
  rw [List.takeWhile_append_of_pos hs, List.dropWhile_append_of_pos hs, hrest.1, hrest.2]
  simp

/-- A number is read as far as its characters go. -/
theorem readValue_number (n : Number) {rest : Text} (ended : Ended rest) (depth : Nat) :
    readValue depth (n.toText ++ rest) =
      (Number.ofText? n.toText).map fun m => (num m, rest) := by
  have number := numberText_toText n
  obtain ⟨take, drop⟩ := takeWhile_append_of_ended number.chars ended
  obtain ⟨c, s, hs, hc⟩ := number.exists_cons
  have read : readValue depth (n.toText ++ rest) = readNumber (n.toText ++ rest) := by
    have ne : ∀ c', isNumberChar c' = false → c ≠ c' := fun c' hc' h => by
      rw [h, hc'] at hc
      cases hc
    rw [hs, List.cons_append, readValue_eq_readScalar (ne _ rfl) (ne _ rfl),
      readScalar_of_ne (ne _ rfl), readWord_eq_none hc]
    rfl
  rw [read, readNumber, take, drop]

theorem takes_number (n : Number) (depth : Nat) :
    Takes (readValue depth) n.toText ((Number.ofText? n.toText).isSome = true) := by
  intro rest ended
  rw [readValue_number n ended]
  cases h : Number.ofText? n.toText with
  | none => exact .inr ⟨by simp, rfl⟩
  | some m => exact .inl ⟨rfl, _, rfl⟩

/-- The text of a value can be the first in an array. -/
theorem opens_render (v : Json) : Opens ']' v.render := by
  cases v with
  | null => exact ⟨'n', _, rfl, by decide, by decide⟩
  | bool b => cases b <;> exact ⟨_, _, rfl, by decide, by decide⟩
  | num n =>
      obtain ⟨c, s, hs, hc⟩ := (numberText_toText n).exists_cons
      refine ⟨c, s, by rw [render, hs], ?_, ?_⟩
      · rw [Bool.eq_false_iff]
        intro hspace
        have hblank := not_isBlank_of_isNumberChar hc
        rw [Text.isBlank_of_isWhitespace hspace] at hblank
        cases hblank
      · rintro rfl
        cases hc
  | str s => exact ⟨'"', _, by rw [render, Quoted.quote]; rfl, by decide, by decide⟩
  | arr xs => cases xs <;> exact ⟨'[', _, by rw [render], by decide, by decide⟩
  | obj fs =>
      rcases fs with _ | ⟨⟨k, v⟩, fs⟩ <;> exact ⟨'\x7b', _, by rw [render], by decide, by decide⟩

theorem skipSpace_render (v : Json) (rest : Text) :
    skipSpace (v.render ++ rest) = v.render ++ rest := by
  obtain ⟨c, s, hs, hspace, -⟩ := opens_render v
  rw [hs]
  exact skipSpace_cons hspace _

/-- Where a member is written its key is read and then its value, in the way that the key asks
for. -/
theorem readMemberBy_renderMember {α : Type} (value : String → Reader α) (f : String × Json)
    (rest : Text) :
    readMemberBy value (renderMember f ++ rest) =
      (value f.1 (f.2.render ++ rest)).map fun parts => ((f.1, parts.1), parts.2) := by
  obtain ⟨k, v⟩ := f
  have key := Quoted.read_escape k.toList (':' :: (v.render ++ rest))
  simp only [renderMember, Quoted.quote, List.cons_append, List.append_assoc, List.nil_append,
    readMemberBy, readString, key, Option.map_some, String.ofList_toList, Option.bind_eq_bind,
    Option.bind_some]
  rw [skipSpace_cons (by decide)]
  simp only [skipSpace_render]
  cases value k (v.render ++ rest) <;> rfl

theorem takes_renderMember {f : String × Json} {depth : Nat} {p : Prop}
    (h : Takes (readValue depth) f.2.render p) :
    Takes (readMember (readValue depth)) (renderMember f) p := by
  intro rest ended
  rw [readMember, readMemberBy_renderMember]
  exact (h rest ended).map fun v => (f.1, v)

/-- The text of a member can be the first in an object. -/
theorem opens_renderMember (f : String × Json) : Opens '\x7d' (renderMember f) :=
  ⟨'"', _, by rw [renderMember, Quoted.quote]; rfl, by decide, by decide⟩

theorem isClose_bracket : IsClose ']' := ⟨by decide, by decide, by decide⟩

theorem isClose_brace : IsClose '\x7d' := ⟨by decide, by decide, by decide⟩

theorem readValue_zero_eq_none {c : Char} (h : c = '[' ∨ c = '\x7b') (s : Text) :
    readValue 0 (c :: s) = none := by
  rcases h with rfl | rfl <;> rfl

theorem render_arr_eq (xs : List Json) : (arr xs).render = '[' :: (arr xs).render.tail := by
  cases xs <;> rw [render] <;> rfl

theorem render_obj_eq (fs : List (String × Json)) :
    (obj fs).render = '\x7b' :: (obj fs).render.tail := by
  rcases fs with _ | ⟨⟨k, v⟩, fs⟩ <;> rw [render] <;> rfl

theorem tail_render_arr (x : Json) (xs : List Json) :
    (arr (x :: xs)).render.tail = x.render ++ (xs.flatMap fun x => ',' :: x.render) ++ [']'] := by
  rw [render, renderItems_eq, List.tail_cons, ← List.append_assoc]

theorem tail_render_obj (f : String × Json) (fs : List (String × Json)) :
    (obj (f :: fs)).render.tail =
      renderMember f ++ (fs.flatMap fun f => ',' :: renderMember f) ++ ['\x7d'] := by
  simp [render, renderFields_eq, renderMember]

theorem takes_renderArr {xs : List Json} {depth : Nat}
    (h : ∀ x ∈ xs, Takes (readValue depth) x.render (x.Readable depth)) :
    Takes (readSequence (readValue depth) ']') (arr xs).render.tail
      ((arr xs).Readable (depth + 1)) := by
  rw [Readable, readableItems_iff]
  cases xs with
  | nil => exact takes_readSequence_nil isClose_bracket (List.forall_mem_nil _)
  | cons x xs =>
      rw [tail_render_arr]
      exact takes_readSequence isClose_bracket fun x' hx' => ⟨opens_render x', h x' hx'⟩

theorem takes_renderObj {fs : List (String × Json)} {depth : Nat}
    (h : ∀ f ∈ fs, Takes (readValue depth) f.2.render (f.2.Readable depth)) :
    Takes (readSequence (readMember (readValue depth)) '\x7d') (obj fs).render.tail
      ((obj fs).Readable (depth + 1)) := by
  rw [Readable, readableFields_iff]
  cases fs with
  | nil => exact takes_readSequence_nil isClose_brace (List.forall_mem_nil _)
  | cons f fs =>
      rw [tail_render_obj]
      exact takes_readSequence isClose_brace fun f' hf' =>
        ⟨opens_renderMember f', takes_renderMember (h f' hf')⟩

/-- **From the front of a text a value is read exactly if it is readable.** -/
theorem takes_render (v : Json) (depth : Nat) :
    Takes (readValue depth) v.render (v.Readable depth) := by
  induction v using memberInduction generalizing depth with
  | null => exact takes_word (v := null) (by simp [words, render]) depth
  | bool b =>
      cases b with
      | true => exact takes_word (v := bool true) (by simp [words, render]) depth
      | false => exact takes_word (v := bool false) (by simp [words, render]) depth
  | num n => exact takes_number n depth
  | str s => exact takes_quote s.toList depth
  | arr xs ih =>
      intro rest ended
      rw [render_arr_eq, List.cons_append]
      cases depth with
      | zero => exact .inr ⟨id, readValue_zero_eq_none (.inl rfl) _⟩
      | succ depth => exact (takes_renderArr (fun x hx => ih x hx depth) rest ended).map arr
  | obj fs ih =>
      intro rest ended
      rw [render_obj_eq, List.cons_append]
      cases depth with
      | zero => exact .inr ⟨id, readValue_zero_eq_none (.inr rfl) _⟩
      | succ depth =>
          exact (takes_renderObj (fun f hf => ih f hf depth) rest ended).map fun members =>
            obj (ofMembers members)

/-- **The text of a value is a document exactly if the value is readable.** -/
theorem exists_parse?_render_iff (v : Json) :
    (∃ w, parse? v.render = some w) ↔ v.Readable maxDepth := by
  have read := takes_render v maxDepth [] nofun
  have skip := skipSpace_render v []
  rw [List.append_nil] at read skip
  unfold parse?
  rw [skip]
  rcases read with ⟨readable, w, hw⟩ | ⟨notReadable, hnone⟩
  · rw [hw]
    exact ⟨fun _ => readable, fun _ => ⟨w, rfl⟩⟩
  · rw [hnone]
    exact ⟨nofun, fun readable => (notReadable readable).elim⟩

/-! ## The same value -/

/-- The texts of numbers that are the same are read, or both are not. -/
theorem isSome_ofText?_eq_of_same {m n : Number} (h : m.same n = true) :
    (Number.ofText? m.toText).isSome = (Number.ofText? n.toText).isSome := by
  cases m <;> cases n <;> try cases h
  case int.int m _ _ n _ _ =>
    obtain rfl : m = n := beq_iff_eq.1 h
    rfl
  case float.float x y =>
    rcases Double.same_iff.1 h with rfl | ⟨hx, hy⟩
    · rfl
    · rw [Double.eq_zero_of_rank hx, Double.eq_zero_of_rank hy]
      cases x.neg <;> cases y.neg <;> decide +kernel

theorem readable_of_sameItems {xs ys : List Json} {depth : Nat}
    (h : ∀ x ∈ xs, ∀ y, x.same y = true → y.Readable depth → x.Readable depth)
    (hs : sameItems xs ys = true) (readable : ReadableItems ys depth) : ReadableItems xs depth := by
  induction xs generalizing ys with
  | nil => trivial
  | cons x xs ih =>
      cases ys with
      | nil => cases hs
      | cons y ys =>
          obtain ⟨hx, hxs⟩ := List.forall_mem_cons.1 h
          obtain ⟨hxy, hs⟩ := Bool.and_eq_true_iff.1 hs
          exact ⟨hx y hxy readable.1, ih hxs hs readable.2⟩

/-- **A value that is the same as a readable one is readable.** -/
theorem readable_of_same {v w : Json} {depth : Nat} (h : v.same w = true)
    (readable : w.Readable depth) : v.Readable depth := by
  induction v using memberInduction generalizing w depth with
  | null => trivial
  | bool b => trivial
  | str s => trivial
  | num m =>
      cases w <;> try cases h
      case num n =>
        rw [Readable, isSome_ofText?_eq_of_same h]
        exact readable
  | arr xs ih =>
      cases w <;> try cases h
      case arr ys =>
        cases depth with
        | zero => exact readable
        | succ depth => exact readable_of_sameItems (fun x hx y hxy => ih x hx hxy) h readable
  | obj fs ih =>
      cases w <;> try cases h
      case obj gs =>
        simp only [same, Bool.and_eq_true, sameFields_iff] at h
        cases depth with
        | zero => exact readable
        | succ depth =>
            rw [Readable, readableFields_iff] at readable ⊢
            intro f hf
            obtain ⟨w, hw, hfw⟩ := h.2 f hf
            exact ih f hf hfw (readable _ (mem_of_lookup hw))

/-- **The texts of values that are the same are both documents, or neither is.** -/
theorem Same.exists_parse?_iff {v w : Json} (h : v.Same w) :
    (∃ x, parse? v.render = some x) ↔ ∃ x, parse? w.render = some x := by
  rw [exists_parse?_render_iff, exists_parse?_render_iff]
  exact ⟨readable_of_same h.symm.same, readable_of_same h.same⟩

end Stencil.Json
