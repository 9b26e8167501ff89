import Stencil.Proofs.Line.Congruence
import Stencil.Proofs.Template.Linear

/-!
# Trees that differ in the order of members

Whether a tree fits a template is asked of the tree, not only of the value that it is.
The order of members is kept everywhere, and where a value is written into a text the
text shows it.  So trees that are the same value may fare differently
(`fits_tells_order`).

Texts are the only place where this can happen, and two conditions exclude it.  The first
is that what stands beside a string with text around its tokens has a fixed text
(`FixedBeside`).  Then from trees that are the same data is recovered that is kin
(`exists_recover_of_same`): the values of tokens that cast to a string may differ, but
whatever casts them again fails for both or for neither, because their texts are those
of values that are the same.  So filling does not fail on one side alone
(`fareAlike_fill`).

The second is that what such strings, and tokens that cast to a string, write from the
data has a fixed text (`FixedIn`).  Then the same data gives the same tree
(`exists_fill_of_same`), and data is the same as long as no value that is written stands
beside a container.  If one does, the only answer that there can be is that the tree does
not fit, because a string comes to stand where there was a container
(`eq_false_of_fits`).
-/

set_option autoImplicit false

namespace Stencil

variable {o : Options} {d : Delimiters} {data data' : Json}

theorem agree_fillString {s : String} (strict : o.allowMissing = false) (h : data.Same data') :
    Agree (fun a b => (∀ l, Line.ofText o.delimiters s.toList = .ok l → l.FixedIn data) →
        a.Same b)
      Fault.Akin (fillString o data s) (fillString o data' s) := by
  rw [fillString_eq_bind strict, fillString_eq_bind strict]
  cases hline : Line.ofText o.delimiters s.toList with
  | error fault => exact .error (.refl fault)
  | ok l =>
      have line := Line.agree_fill (Line.wellFormed_of_ofText hline) h
      exact line.imp fun a b _ _ same fixed => same (fixed l rfl)

/-- A string fares alike with data that is kin. -/
theorem fareAlike_fillString (strict : o.allowMissing = false) (h : data.Kin data') (s : String) :
    FareAlike (fillString o data s) (fillString o data' s) := by
  rw [fillString_eq_bind strict, fillString_eq_bind strict]
  cases hline : Line.ofText o.delimiters s.toList with
  | error fault => exact .error (.refl fault)
  | ok l => exact Line.fareAlike_fill (Line.wellFormed_of_ofText hline) h

namespace Template

variable {t : Template} {v w : Json}

/-! ## What stands beside the strings -/

/-- The same strings, with values beside them that are the same. -/
def SameLeaves (leaves leaves' : List (String × Option Json)) : Prop :=
  List.Forall₂ (fun leaf leaf' => leaf.1 = leaf'.1 ∧ Json.Both Json.Same leaf.2 leaf'.2)
    leaves leaves'

theorem SameLeaves.append {before before' after after' : List (String × Option Json)}
    (h : SameLeaves before before') (h' : SameLeaves after after') :
    SameLeaves (before ++ after) (before' ++ after') :=
  List.rel_append h h'

theorem sameLeaves_leavesItems {xs ys ys' : List Json}
    (h : ∀ i : Nat, Json.Both Json.Same ys[i]? ys'[i]?)
    (each : ∀ x ∈ xs, ∀ r r', Json.Both Json.Same r r' → SameLeaves (leaves x r) (leaves x r')) :
    SameLeaves (leavesItems xs ys) (leavesItems xs ys') := by
  induction xs generalizing ys ys' with
  | nil => exact .nil
  | cons x xs ih =>
      obtain ⟨hx, hxs⟩ := List.forall_mem_cons.1 each
      rw [leavesItems, leavesItems]
      refine .append (hx _ _ ?_) (ih (fun i => ?_) hxs)
      · rw [List.head?_eq_getElem?, List.head?_eq_getElem?]
        exact h 0
      · rw [List.getElem?_tail, List.getElem?_tail]
        exact h (i + 1)

theorem sameLeaves_leavesFields {fs gs gs' : List (String × Json)}
    (h : ∀ f ∈ fs, SameLeaves (leaves f.2 (gs.lookup f.1)) (leaves f.2 (gs'.lookup f.1))) :
    SameLeaves (leavesFields fs gs) (leavesFields fs gs') := by
  induction fs with
  | nil => exact .nil
  | cons f fs ih =>
      obtain ⟨hf, hfs⟩ := List.forall_mem_cons.1 h
      exact .append hf (ih hfs)

/-- **Beside every string trees that are the same have values that are the same.** -/
theorem sameLeaves {r r' : Option Json} (h : Json.Both Json.Same r r') :
    SameLeaves (leaves t r) (leaves t r') := by
  induction t using Json.memberInduction generalizing r r' with
  | null => exact .nil
  | bool b => exact .nil
  | num n => exact .nil
  | str s => exact .cons ⟨rfl, h⟩ .nil
  | arr xs ih =>
      refine sameLeaves_leavesItems (fun i => ?_) fun x hx _ _ h => ih x hx h
      rcases Json.both_iff.1 h with ⟨rfl, rfl⟩ | ⟨v, w, rfl, rfl, hvw⟩
      · trivial
      · simpa [Json.getElem?_items] using hvw.step? (.index i)
  | obj fs ih =>
      refine sameLeaves_leavesFields fun f hf => ih f hf ?_
      rcases Json.both_iff.1 h with ⟨rfl, rfl⟩ | ⟨v, w, rfl, rfl, hvw⟩
      · trivial
      · simpa [Json.lookup_fields] using hvw.step? (.key f.1)

/-! ## Recovering -/

/-- Beside every line of that kind the tree has a value with a fixed text, or nothing. -/
def FixedBeside (p : Line → Prop) (d : Delimiters) (t : Template) (v : Json) : Prop :=
  ∀ leaf ∈ leaves t (some v), ∀ l, Line.ofText d leaf.1.toList = .ok l → p l →
    ∀ r, leaf.2 = some r → r.FixedText

section FixedBeside

variable {p q : Line → Prop}

theorem FixedBeside.of_same (fixed : FixedBeside p d t v) (h : v.Same w) :
    FixedBeside p d t w := by
  intro leaf' hleaf' l hline hp r' hr'
  have beside : SameLeaves (leaves t (some v)) (leaves t (some w)) := sameLeaves h
  obtain ⟨leaf, hleaf, hsource, hsame⟩ := exists_left_of_forall₂ beside hleaf'
  rcases Json.both_iff.1 hsame with ⟨-, hnone⟩ | ⟨r, r'', hr, hr'', hrr⟩
  · cases hnone.symm.trans hr'
  · cases hr''.symm.trans hr'
    exact (fixed leaf hleaf l (hsource ▸ hline) hp r hr).of_same hrr.same

theorem FixedBeside.of_imp (fixed : FixedBeside p d t v) (h : ∀ l, q l → p l) :
    FixedBeside q d t v :=
  fun leaf hleaf l hline hq => fixed leaf hleaf l hline (h l hq)

end FixedBeside

/-- **From trees that are the same data is recovered that is kin**, if what stands beside the
strings with text around their tokens has fixed texts.  It is the same if this holds for all the
strings that write values. -/
theorem exists_recover_of_same [Engine] (h : v.Same w) (fixed : FixedBeside Line.Embeds d t v)
    (hdata : recover d t v = .ok data) :
    ∃ data', recover d t w = .ok data' ∧ data.Kin data' ∧
      (FixedBeside Line.Writes d t v → data.Same data') := by
  obtain ⟨placed, hplaced, rfl⟩ := recover_eq_ok_iff.1 hdata
  have beside : SameLeaves (leaves t (some v)) (leaves t (some w)) := sameLeaves h
  obtain ⟨placed', hplaced', alike⟩ := exists_forall₂_along beside hplaced (p := GivesBack d)
    (q := fun values values' => (gather values).Kin (gather values') ∧
      (FixedBeside Line.Writes d t v → (gather values).Same (gather values')))
    fun leaf hleaf leaf' _ values ⟨hsource, hsame⟩ ⟨l, hline, hvalues, writable⟩ => by
      obtain ⟨values', hvalues', kin, same⟩ := Line.exists_values_of_same
        (Line.wellFormed_of_ofText hline) hsame (fixed leaf hleaf l hline) hvalues
      refine ⟨values', ⟨l, hsource ▸ hline, hvalues', kin.writable writable⟩,
        kin_gather kin writable, fun beside => same_gather (same ?_) writable⟩
      exact beside leaf hleaf l hline
  have start : Json.Same (.obj []) (.obj []) := .refl (by simp)
  refine ⟨merged placed', recover_eq_ok_iff.2 ⟨placed', hplaced', rfl⟩,
    start.kin.foldl_merge ?_, fun beside => start.foldl_merge ?_⟩
  · rw [List.forall₂_map_left_iff, List.forall₂_map_right_iff]
    exact alike.imp fun _ _ h => h.1
  · rw [List.forall₂_map_left_iff, List.forall₂_map_right_iff]
    exact alike.imp fun _ _ h => h.2 beside

/-! ## Filling -/

/-- All that the strings of the template write from the data has a fixed text. -/
def FixedIn (d : Delimiters) (t : Template) (data : Json) : Prop :=
  ∀ s ∈ t.strings, ∀ l, Line.ofText d s.toList = .ok l → l.FixedIn data

/-- **A template fares alike with data that is kin.** -/
theorem fareAlike_fill (strict : o.allowMissing = false) (h : data.Kin data') :
    FareAlike (fill o data t) (fill o data' t) :=
  Agree.of_firstFault (fun _ => fill_eq_error_iff) (fun _ => fill_eq_error_iff)
    fun s _ => fareAlike_fillString strict h s

/-- **With data that is the same a template becomes the same tree**, if all that is written has a
fixed text. -/
theorem exists_fill_of_same (strict : o.allowMissing = false) (ht : t.WellFormed)
    (h : data.Same data') (fixed : FixedIn o.delimiters t data) {r : Json}
    (hr : fill o data t = .ok r) : ∃ r', fill o data' t = .ok r' ∧ r.Same r' := by
  obtain ⟨r', hr', hsame⟩ := exists_refill ht hr fun s hs a ha => by
    obtain ⟨b, hb, same⟩ := (agree_fillString strict h).exists_ok ha
    exact ⟨b, hb, (same (fixed s hs)).symm.same⟩
  refine ⟨r', hr', Json.Same.symm ⟨?_, ?_, hsame⟩⟩
  · exact wellFormed_of_fill strict ht h.right hr'
  · exact wellFormed_of_fill strict ht h.left hr

/-! ## Fitting -/

/-- **Where a string that writes a value stands beside a container, the tree does not fit.** -/
theorem eq_false_of_fits [Engine] (ht : t.WellFormed) (hv : v.WellFormed)
    (loose : ¬ FixedBeside Line.Writes o.delimiters t v) {b : Bool} (h : fits o t v = .ok b) :
    b = false := by
  obtain ⟨data, hdata, ⟨again, hfill, rfl⟩ | ⟨-, hb⟩⟩ := fits_eq_ok_iff.1 h
  · rw [Bool.eq_false_iff]
    intro hsame
    apply loose
    rintro leaf hleaf l hline ⟨token, writes⟩ r hr
    have hagain := wellFormed_of_fill rfl ht (wellFormed_of_recover hv hdata) hfill
    have beside : SameLeaves (leaves t (some again)) (leaves t (some v)) :=
      sameLeaves ⟨hagain, hv, hsame⟩
    obtain ⟨leaf', hleaf', hsource, hboth⟩ := exists_left_of_forall₂ beside hleaf
    obtain ⟨u, hu, hstring⟩ := fillString_of_mem_leaves ht hfill hleaf'
    obtain ⟨l', hline', hl⟩ := (fillString_eq_ok_iff rfl).1 hstring
    rw [hsource] at hline'
    cases hline'.symm.trans hline
    obtain ⟨s, rfl⟩ := Line.exists_str_of_renders writes hl
    rw [hu, hr] at hboth
    exact .inl (hboth.alike.isScalar trivial)
  · exact hb

/-- For trees that are the same the answers are the same, if all that is written has a fixed
text. -/
theorem eq_of_fits [Engine] (ht : t.WellFormed) (h : v.Same w)
    (fixed : FixedBeside Line.Writes o.delimiters t v)
    (fixedIn : ∀ data, recover o.delimiters t v = .ok data → FixedIn o.delimiters t data)
    {b c : Bool} (hb : fits o t v = .ok b) (hc : fits o t w = .ok c) : b = c := by
  obtain ⟨data, hdata, answer⟩ := fits_eq_ok_iff.1 hb
  obtain ⟨data'', hdata'', answer'⟩ := fits_eq_ok_iff.1 hc
  have embedded := fixed.of_imp fun _ => Line.Embeds.writes
  obtain ⟨data', hdata', kin, same⟩ := exists_recover_of_same h embedded hdata
  cases hdata'.symm.trans hdata''
  rcases answer with ⟨again, hfill, rfl⟩ | ⟨⟨fault, hfill, -⟩, rfl⟩
  · obtain ⟨again', hfill', refilled⟩ :=
      exists_fill_of_same (o := o.strict) rfl ht (same fixed) (fixedIn data hdata) hfill
    rcases answer' with ⟨again'', hfill'', rfl⟩ | ⟨⟨fault', hfault', -⟩, -⟩
    · cases hfill'.symm.trans hfill''
      rw [Bool.eq_iff_iff]
      refine ⟨fun hv => ?_, fun hw => ?_⟩
      · exact ((refilled.symm.trans ⟨refilled.left, h.left, hv⟩).trans h).same
      · exact ((refilled.trans ⟨refilled.right, h.right, hw⟩).trans h.symm).same
    · cases hfill'.symm.trans hfault'
  · obtain ⟨fault', hfault', -⟩ := (fareAlike_fill rfl kin).exists_error hfill
    rcases answer' with ⟨again', hfill', -⟩ | ⟨-, rfl⟩
    · cases hfault'.symm.trans hfill'
    · rfl

/-- Where there is an answer for a tree there is one for all that is the same, if what stands beside
the strings with text around their tokens has fixed texts. -/
theorem exists_fits_of_same [Engine] (h : v.Same w) (fixed : FixedBeside Line.Embeds o.delimiters t v)
    {b : Bool} (hb : fits o t v = .ok b) : ∃ c, fits o t w = .ok c := by
  obtain ⟨data, hdata, answer⟩ := fits_eq_ok_iff.1 hb
  obtain ⟨data', hdata', kin, -⟩ := exists_recover_of_same h fixed hdata
  have alike : FareAlike (fill o.strict data t) (fill o.strict data' t) := fareAlike_fill rfl kin
  rcases answer with ⟨again, hfill, -⟩ | ⟨⟨fault, hfill, missing⟩, -⟩
  · obtain ⟨again', hfill', -⟩ := alike.exists_ok hfill
    exact ⟨_, fits_eq_ok_iff.2 ⟨data', hdata', .inl ⟨again', hfill', rfl⟩⟩⟩
  · obtain ⟨fault', hfill', akin⟩ := alike.exists_error hfill
    exact ⟨_, fits_eq_ok_iff.2 ⟨data', hdata', .inr ⟨⟨fault', hfill', akin ▸ missing⟩, rfl⟩⟩⟩

/-- **The order of members shows in texts alone.**  For trees that are the same value there are
answers for both or for neither, if what stands beside the strings with text around their tokens has
fixed texts.  Where there are answers they are the same, if what is written from the data has fixed
texts. -/
theorem fits_of_same [Engine] (ht : t.WellFormed) (hv : v.WellFormed) (hw : w.WellFormed)
    (h : v.same w = true) :
    (FixedBeside Line.Embeds o.delimiters t v →
        ((∃ b, fits o t v = .ok b) ↔ ∃ c, fits o t w = .ok c)) ∧
      ((∀ data, recover o.delimiters t v = .ok data → FixedIn o.delimiters t data) →
        ∀ b c, fits o t v = .ok b → fits o t w = .ok c → b = c) := by
  have same : v.Same w := ⟨hv, hw, h⟩
  refine ⟨fun fixed => ⟨?_, ?_⟩, fun fixedIn b c hb hc => ?_⟩
  · rintro ⟨b, hb⟩
    exact exists_fits_of_same same fixed hb
  · rintro ⟨c, hc⟩
    exact exists_fits_of_same same.symm (fixed.of_same same) hc
  · by_cases fixed : FixedBeside Line.Writes o.delimiters t v
    · exact eq_of_fits ht same fixed fixedIn hb hc
    · have loose : ¬ FixedBeside Line.Writes o.delimiters t w := fun fixed' =>
        fixed (fixed'.of_same same.symm)
      rw [eq_false_of_fits ht hv fixed hb, eq_false_of_fits ht hw loose hc]

/-! Two members that change places. -/

/-- An object with two members. -/
def ordered : Json :=
  .obj [("a", .num (.int 1 (by decide) (by decide))), ("b", .num (.int 2 (by decide) (by decide)))]

/-- The same object with its members in the other order. -/
def swapped : Json :=
  .obj [("b", .num (.int 2 (by decide) (by decide))), ("a", .num (.int 1 (by decide) (by decide)))]

/-- A template that writes one value and holds another. -/
def titled : Template :=
  .arr [.str "v: <x>", .str "<y>"]

/-- The token whose value is written. -/
def titleToken : Token :=
  ⟨.asIs, "x".toList, none, "x".toList, "<x>".toList⟩

/-- A title with the value below it. -/
def underTitle (v : Json) : Json :=
  .arr [.str "v: 5", v]

/-- The title is all that is written. -/
theorem eq_title_of_renders {s : String} (hs : s ∈ titled.strings) {l : Line}
    (hline : Line.ofText angles.delimiters s.toList = .ok l) {token : Token}
    (writes : l.Renders token) : s = "v: <x>" ∧ token = titleToken := by
  have title : Line.ofText angles.delimiters "v: <x>".toList =
      .ok ⟨[("v: ".toList, titleToken)], []⟩ := by with_unfolding_all rfl
  have held : Line.ofText angles.delimiters "<y>".toList =
      .ok ⟨[([], ⟨.asIs, "y".toList, none, "y".toList, "<y>".toList⟩)], []⟩ := by
    with_unfolding_all rfl
  obtain ⟨htoken, written⟩ := writes
  rcases List.mem_cons.1 hs with rfl | hs
  · cases title.symm.trans hline
    exact ⟨rfl, List.mem_singleton.1 htoken⟩
  · cases List.mem_singleton.1 hs
    cases held.symm.trans hline
    cases List.mem_singleton.1 htoken
    rcases written with notWhole | cast
    · cases notWhole
    · cases cast

theorem fixedBeside_underTitle :
    FixedBeside Line.Embeds angles.delimiters titled (underTitle ordered) := by
  rintro leaf hleaf l hline ⟨token, htoken, notWhole⟩ r hr
  have hs : leaf.1 ∈ titled.strings := map_fst_leaves titled _ ▸ List.mem_map_of_mem hleaf
  obtain ⟨htitle, -⟩ := eq_title_of_renders hs hline ⟨htoken, .inl notWhole⟩
  rcases List.mem_cons.1 hleaf with rfl | hleaf
  · cases hr
    exact .inl trivial
  · cases List.mem_singleton.1 hleaf
    exact absurd htitle (by decide)

theorem fixedIn_underTitle {data : Json}
    (h : recover angles.delimiters titled (underTitle ordered) = .ok data) :
    FixedIn angles.delimiters titled data := by
  have written : ∀ v ∈ (recover angles.delimiters titled (underTitle ordered)).toOption.bind
      fun data => data.get? titleToken.target, v.FixedText := by decide +kernel
  rw [h] at written
  intro s hs l hline token writes v hv
  obtain ⟨-, rfl⟩ := eq_title_of_renders hs hline writes
  exact written v hv

theorem fits_of_same_titled :
    (underTitle ordered).same (underTitle swapped) = true ∧
      FixedBeside Line.Embeds angles.delimiters titled (underTitle ordered) ∧
      (∀ data, recover angles.delimiters titled (underTitle ordered) = .ok data →
        FixedIn angles.delimiters titled data) ∧
      fits angles titled (underTitle ordered) = .ok true ∧
      fits angles titled (underTitle swapped) = .ok true := by
  have hsame : (underTitle ordered).same (underTitle swapped) = true := by decide +kernel
  have hfits : fits angles titled (underTitle ordered) = .ok true := by decide +kernel
  obtain ⟨answers, equal⟩ := fits_of_same (o := angles) (t := titled) (v := underTitle ordered)
    (w := underTitle swapped) (by simp [titled, Json.WellFormed])
    (by simp [underTitle, ordered, Json.WellFormed, Json.WellFormedFields])
    (by simp [underTitle, swapped, Json.WellFormed, Json.WellFormedFields]) hsame
  obtain ⟨c, hc⟩ := (answers fixedBeside_underTitle).1 ⟨true, hfits⟩
  refine ⟨hsame, fixedBeside_underTitle, fun _ => fixedIn_underTitle, hfits, ?_⟩
  rw [hc, ← equal (fun _ => fixedIn_underTitle) true c hfits hc]

/-- A template that writes a value and holds the same value. -/
def quoting : Template :=
  .arr [.str "v: <x>", .str "<x>"]

/-- The text of the object with the object below it. -/
def underQuote (v : Json) : Json :=
  .arr [.str "v: \x7b\"a\":1,\"b\":2\x7d", v]

/-- **The order of members decides whether a tree fits, and whether there is an answer.**  A value
that is written and compared as a text has to come in the order of that text, and the text beside a
string has to start as the string does. -/
theorem fits_tells_order :
    ((underQuote ordered).same (underQuote swapped) = true ∧
        fits angles quoting (underQuote ordered) = .ok true ∧
        fits angles quoting (underQuote swapped) = .ok false) ∧
      ordered.same swapped = true ∧
        fits angles (.str "\x7b\"a<x>") ordered = .ok false ∧
        fits angles (.str "\x7b\"a<x>") swapped = .error (.mismatch "x".toList) := by
  refine ⟨⟨?_, ?_, ?_⟩, ?_, ?_, ?_⟩ <;> decide +kernel

end Template

end Stencil
