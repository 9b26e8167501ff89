import Stencil.Proofs.Line.Gather
import Stencil.Proofs.Line.Reader
import Stencil.Proofs.Line.Recover
import Stencil.Proofs.Template.Fill
import Stencil.Template.Recover

/-!
# Recovering from a template, line by line

The strings of a template, taken apart, are its lines.  What is recovered from a
tree that the template became is the merge of what is recovered from its lines, in
their order, so a statement about the data of a template follows from one about
each of its lines (`exists_recover`).
-/

set_option autoImplicit false

namespace Stencil

variable {d : Delimiters} {o : Options} {data : Json}

/-- Without leave to keep a missing variable, a string becomes what its line becomes, or fails as its
line does. -/
theorem fillString_eq_bind {s : String} (strict : o.allowMissing = false) :
    fillString o data s = (Line.ofText o.delimiters s.toList >>= fun l => l.fill data) := by
  unfold fillString
  cases Line.ofText o.delimiters s.toList with
  | error fault => rfl
  | ok l =>
      rw [ok_bind, ok_bind]
      cases l.fill data with
      | ok v => rfl
      | error fault => cases fault <;> simp [strict]

theorem fillString_eq_ok_iff {s : String} {v : Json} (strict : o.allowMissing = false) :
    fillString o data s = .ok v ↔
      ∃ l, Line.ofText o.delimiters s.toList = .ok l ∧ l.fill data = .ok v := by
  rw [fillString_eq_bind strict, bind_eq_ok_iff]

/-- What the lines of a template give back, merged. -/
def merged (placed : List (List (Token × Json))) : Json :=
  (placed.map gather).foldl Json.merge (.obj [])

/-! ## Every token that is read has a well-formed default -/

/-- A line whose tokens have well-formed defaults. -/
def Line.WellFormed (l : Line) : Prop :=
  ∀ t ∈ l.tokens, ∀ v, t.fallback = some v → v.WellFormed

theorem Line.wellFormed_of_ofText {s : Text} {l : Line} (h : Line.ofText d s = .ok l) :
    l.WellFormed := by
  intro t ht
  obtain ⟨body, rest, hread⟩ := Line.exists_read?_of_mem_tokens h ht
  exact Token.wellFormed_fallback_of_read? hread

namespace Template

/-- The lines of the template's strings, in the order of the document. -/
def lines (d : Delimiters) (t : Template) : Except Fault (List Line) :=
  t.strings.mapM fun s => Line.ofText d s.toList

variable {t : Template} {lines : List Line}

/-- The lines are those of the strings beside any tree. -/
theorem lines_eq_ok_iff (r : Option Json) :
    t.lines d = .ok lines ↔ List.Forall₂
      (fun (leaf : String × Option Json) l => Line.ofText d leaf.1.toList = .ok l)
      (leaves t r) lines := by
  rw [← List.forall₂_map_left_iff (f := Prod.fst)
    (R := fun s l => Line.ofText d (String.toList s) = .ok l), map_fst_leaves]
  exact mapM_eq_ok_iff

theorem exists_line_of_mem_strings (h : t.lines d = .ok lines) {s : String}
    (hs : s ∈ t.strings) : ∃ l ∈ lines, Line.ofText d s.toList = .ok l :=
  exists_right_of_forall₂ (mapM_eq_ok_iff.1 h) hs

theorem wellFormed_of_mem_lines (h : t.lines d = .ok lines) {l : Line} (hl : l ∈ lines) :
    l.WellFormed := by
  obtain ⟨s, -, hs⟩ := exists_left_of_forall₂ (mapM_eq_ok_iff.1 h) hl
  exact Line.wellFormed_of_ofText hs

/-- Filling a well-formed template with well-formed data gives a well-formed tree. -/
theorem wellFormed_of_fill (strict : o.allowMissing = false) (ht : t.WellFormed)
    (hdata : data.WellFormed) {r : Json} (h : fill o data t = .ok r) : r.WellFormed := by
  induction t using Json.memberInduction generalizing r with
  | null => cases h; exact ht
  | bool b => cases h; exact ht
  | num n => cases h; exact ht
  | str s =>
      obtain ⟨l, hline, hfill⟩ := (fillString_eq_ok_iff strict).1 h
      exact Line.wellFormed_of_fill (Line.wellFormed_of_ofText hline) hdata hfill
  | arr xs ih =>
      obtain ⟨ys, hys, rfl⟩ := fill_arr_eq_ok_iff.1 h
      refine (Json.wellFormed_arr ys).2 fun y hy => ?_
      obtain ⟨x, hx, hxy⟩ := exists_left_of_forall₂ (fillItems_eq_ok_iff.1 hys) hy
      exact ih x hx ((Json.wellFormed_arr xs).1 ht x hx) hxy
  | obj fs ih =>
      obtain ⟨gs, hgs, rfl⟩ := fill_obj_eq_ok_iff.1 h
      obtain ⟨distinct, all⟩ := (Json.wellFormed_obj fs).1 ht
      refine (Json.wellFormed_obj gs).2 ⟨keys_of_fillFields hgs ▸ distinct, fun g hg => ?_⟩
      obtain ⟨f, hf, -, hfg⟩ := exists_left_of_forall₂ (fillFields_eq_ok_iff.1 hgs) hg
      exact ih f hf (all f hf) hfg

/-! ## Filling, line by line -/

/-- **A template can be filled if each of its lines can.** -/
theorem exists_fill_of_lines (strict : o.allowMissing = false)
    (hlines : t.lines o.delimiters = .ok lines)
    (each : ∀ l ∈ lines, ∃ v, l.fill data = .ok v) : ∃ r, fill o data t = .ok r := by
  refine exists_fill fun s hs => ?_
  obtain ⟨l, hl, hofText⟩ := exists_line_of_mem_strings hlines hs
  obtain ⟨v, hv⟩ := each l hl
  exact ⟨v, (fillString_eq_ok_iff strict).2 ⟨l, hofText, hv⟩⟩

/-- A template becomes the same tree with other data if each of its lines becomes the same value. -/
theorem exists_refill_of_lines {data' result : Json} (wf : t.WellFormed)
    (strict : o.allowMissing = false) (hlines : t.lines o.delimiters = .ok lines)
    (h : fill o data t = .ok result)
    (each : ∀ l ∈ lines, ∀ v, l.fill data = .ok v →
      ∃ v', l.fill data' = .ok v' ∧ v'.same v = true) :
    ∃ result', fill o data' t = .ok result' ∧ result'.same result = true := by
  refine exists_refill wf h fun s hs v hv => ?_
  obtain ⟨l, hl, hofText⟩ := exists_line_of_mem_strings hlines hs
  obtain ⟨l', hl', hfill⟩ := (fillString_eq_ok_iff strict).1 hv
  cases hofText.symm.trans hl'
  obtain ⟨v', hv', hsame⟩ := each l hl v hfill
  exact ⟨v', (fillString_eq_ok_iff strict).2 ⟨l, hofText, hv'⟩, hsame⟩

/-! ## Recovering, leaf by leaf -/

variable [Engine]

/-- A string gives back the values of its line, all of which can be put at the paths of their
tokens. -/
def GivesBack (d : Delimiters) (leaf : String × Option Json) (placed : List (Token × Json)) :
    Prop :=
  ∃ l, Line.ofText d leaf.1.toList = .ok l ∧ l.values leaf.2 = .ok placed ∧
    ∀ c ∈ placed, c.1.Writable

variable {leaf : String × Option Json} {values : List (Token × Json)}
  {placed : List (List (Token × Json))} {result : Json}

theorem GivesBack.gatherable (h : GivesBack d leaf values)
    (hproduced : ∀ r, leaf.2 = some r → r.WellFormed) : Gatherable values := by
  obtain ⟨l, hline, hvalues, writable⟩ := h
  have wf := Line.wellFormed_values (Line.wellFormed_of_ofText hline) hproduced hvalues
  exact fun c hc => ⟨writable c hc, wf c hc⟩

theorem recoverString_eq_ok_iff_givesBack {fragment : Json} :
    recoverString d leaf.1 leaf.2 = .ok fragment ↔
      ∃ values, GivesBack d leaf values ∧ gather values = fragment := by
  rw [recoverString_eq_ok_iff]
  refine ⟨?_, ?_⟩
  · rintro ⟨l, values, hline, hvalues, writable, rfl⟩
    exact ⟨values, ⟨l, hline, hvalues, writable⟩, rfl⟩
  · rintro ⟨values, ⟨l, hline, hvalues, writable⟩, rfl⟩
    exact ⟨l, values, hline, hvalues, writable, rfl⟩

theorem learn_eq_ok_iff {data' : Json} :
    learn d data leaf = .ok data' ↔
      ∃ fragment, recoverString d leaf.1 leaf.2 = .ok fragment ∧ data.merge fragment = data' := by
  rw [learn, bind_eq_ok_iff]
  simp [pure, Except.pure]

/-- Learning from one leaf after the other merges the fragments in their order. -/
theorem foldlM_learn_eq_ok_iff {leaves : List (String × Option Json)} {data' : Json} :
    leaves.foldlM (learn d) data = .ok data' ↔
      ∃ fragments, List.Forall₂ (fun leaf fragment => recoverString d leaf.1 leaf.2 = .ok fragment)
        leaves fragments ∧ fragments.foldl Json.merge data = data' := by
  induction leaves generalizing data with
  | nil =>
      simp only [List.foldlM_nil, List.forall₂_nil_left_iff, exists_eq_left, List.foldl_nil]
      exact ⟨fun h => by cases h; rfl, fun h => by rw [h]; rfl⟩
  | cons leaf leaves ih =>
      simp only [List.foldlM_cons, bind_eq_ok_iff, learn_eq_ok_iff, ih,
        List.forall₂_cons_left_iff]
      refine ⟨?_, ?_⟩
      · rintro ⟨_, ⟨fragment, hleaf, rfl⟩, fragments, hrest, hdata⟩
        exact ⟨fragment :: fragments, ⟨fragment, fragments, hleaf, hrest, rfl⟩, hdata⟩
      · rintro ⟨_, ⟨fragment, fragments, hleaf, hrest, rfl⟩, hdata⟩
        exact ⟨_, ⟨fragment, hleaf, rfl⟩, fragments, hrest, hdata⟩

/-- **Data is recovered from a tree exactly if each string of the template gives values back, and
then it is all of these, merged.** -/
theorem recover_eq_ok_iff :
    recover d t result = .ok data ↔
      ∃ placed, List.Forall₂ (GivesBack d) (leaves t (some result)) placed ∧
        merged placed = data := by
  rw [recover, foldlM_learn_eq_ok_iff]
  refine ⟨fun ⟨fragments, hfragments, hdata⟩ => ?_, fun ⟨placed, hplaced, hdata⟩ => ?_⟩
  · obtain ⟨placed, hplaced, hgather⟩ := exists_forall₂_comp hfragments
      (p := GivesBack d) (q := fun values fragment => gather values = fragment)
      fun leaf _ fragment h => recoverString_eq_ok_iff_givesBack.1 h
    rw [← List.forall₂_map_left_iff (R := Eq), List.forall₂_eq_eq_eq] at hgather
    exact ⟨placed, hplaced, by rw [merged, hgather, hdata]⟩
  · refine ⟨placed.map gather, List.forall₂_map_right_iff.2 ?_, hdata⟩
    exact hplaced.imp fun leaf values h => recoverString_eq_ok_iff_givesBack.2 ⟨values, h, rfl⟩

/-- The values that are given back can be gathered. -/
theorem gatherable_of_givesBack (hresult : result.WellFormed)
    (h : List.Forall₂ (GivesBack d) (leaves t (some result)) placed) :
    ∀ values ∈ placed, Gatherable values := by
  intro values hvalues
  obtain ⟨leaf, hleaf, givesBack⟩ := exists_left_of_forall₂ h hvalues
  refine givesBack.gatherable (wellFormed_of_mem_leaves (fun v hv => ?_) hleaf)
  cases hv
  exact hresult

theorem wellFormed_of_recover (hresult : result.WellFormed) (h : recover d t result = .ok data) :
    data.WellFormed := by
  obtain ⟨placed, hplaced, rfl⟩ := recover_eq_ok_iff.1 h
  refine Json.wellFormed_foldl_merge (by simp) fun part hpart => ?_
  obtain ⟨values, hvalues, rfl⟩ := List.mem_map.1 hpart
  exact wellFormed_gather (gatherable_of_givesBack hresult hplaced values hvalues)

/-- **Each value that is given back belongs to a token of the template**, at whose path it can be
put, and no token has two. -/
theorem exists_lines_of_givesBack {r : Option Json}
    (h : List.Forall₂ (GivesBack d) (leaves t r) placed) :
    ∃ lines, t.lines d = .ok lines ∧
      List.Forall₂ (fun l values => (values.map Prod.fst).Sublist l.tokens ∧
        ∀ c ∈ values, c.1.Writable) lines placed := by
  obtain ⟨lines, hlines, hplaced⟩ := exists_forall₂_comp h
    (p := fun leaf l => Line.ofText d leaf.1.toList = .ok l)
    (q := fun l values => (values.map Prod.fst).Sublist l.tokens ∧ ∀ c ∈ values, c.1.Writable)
    fun leaf _ values ⟨l, hline, hvalues, writable⟩ => by
      refine ⟨l, hline, ?_, writable⟩
      rcases Line.map_fst_values hvalues with htokens | ⟨-, rfl⟩
      · rw [htokens]
      · exact List.nil_sublist _
  exact ⟨lines, (lines_eq_ok_iff r).2 hlines, hplaced⟩

/-- **What is recovered from a template is what is recovered from its lines, merged.** -/
theorem exists_recover {p : Line → List (Token × Json) → Prop} {result : Json}
    (wf : t.WellFormed) (strict : o.allowMissing = false)
    (hlines : t.lines o.delimiters = .ok lines) (h : fill o data t = .ok result)
    (each : ∀ l ∈ lines, ∀ v, l.fill data = .ok v →
      ∃ placed, l.recover (some v) = .ok (gather placed) ∧ p l placed) :
    ∃ placed, List.Forall₂ p lines placed ∧
      recover o.delimiters t result = .ok (merged placed) := by
  have beside := (lines_eq_ok_iff (some result)).1 hlines
  obtain ⟨placed, hplaced, hp⟩ := exists_forall₂_comp beside
    (p := fun leaf placed =>
      recoverString o.delimiters leaf.1 leaf.2 = .ok (gather placed))
    (q := fun placed l => p l placed) fun leaf hleaf l hl => by
      obtain ⟨l', hmem, hl'⟩ := exists_right_of_forall₂ beside hleaf
      cases hl.symm.trans hl'
      obtain ⟨v, hv, hfill⟩ := fillString_of_mem_leaves wf h hleaf
      obtain ⟨l', hl', hfill⟩ := (fillString_eq_ok_iff strict).1 hfill
      cases hl.symm.trans hl'
      obtain ⟨placed, hrecover, hp⟩ := each l hmem v hfill
      refine ⟨placed, ?_, hp⟩
      rw [recoverString, hl, hv]
      exact hrecover
  refine ⟨placed, hp.flip, foldlM_learn_eq_ok_iff.2 ⟨_, ?_, rfl⟩⟩
  exact List.forall₂_map_right_iff.2 hplaced

/-- **There is an answer whether a tree fits if data can be recovered from it, and the template can be
filled with this data or lacks a variable.** -/
theorem fits_eq_ok_iff {b : Bool} :
    fits o t result = .ok b ↔ ∃ data, recover o.delimiters t result = .ok data ∧
      ((∃ again, fill o.strict data t = .ok again ∧ again.same result = b) ∨
        (∃ fault, fill o.strict data t = .error fault ∧ fault.isMissing = true) ∧ b = false) := by
  rw [fits, bind_eq_ok_iff]
  refine exists_congr fun data => and_congr_right fun _ => ?_
  cases hfill : fill o.strict data t with
  | ok again => simp
  | error fault => cases fault <;> simp [Fault.isMissing]

/-- A tree fits the template if filling with the data recovered from it gives the same tree. -/
theorem fits_of_refill {v data' again : Json} (hrecover : recover o.delimiters t v = .ok data')
    (hfill : fill o.strict data' t = .ok again) (hsame : again.same v = true) :
    fits o t v = .ok true :=
  fits_eq_ok_iff.2 ⟨data', hrecover, .inl ⟨again, hfill, hsame⟩⟩

end Template

end Stencil
