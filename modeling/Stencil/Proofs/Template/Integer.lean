import Stencil.Proofs.Cast.Integer
import Stencil.Proofs.Template.Reorder
import Stencil.Proofs.Template.RoundTrip

/-!
# Integers in texts

A token in a text that is cast to a number leaves the digits of an integer there, and
from these digits a number is recovered.  If the text can be cut along its literal
texts in one way only (`Line.OneCut`), the token gets its own digits back.  Then the
number is the integer itself exactly if a cast to a number gives back the integer from
its digits, or the token has the integer as its default (`recoverText_intText`).

A cast to a number goes by way of the nearest double, so it gives back what fits 64
bits with a sign and has at most 53 binary digits in front of its trailing zeros
(`recover_integer`).
-/

set_option autoImplicit false

namespace Stencil

variable {n : Int} {lower : -0x8000000000000000 ≤ n} {upper : n < 0x10000000000000000}

/-! ## One token -/

namespace Token

variable {t : Token}

/-- From the digits of an integer a number token gives back its default or the number cast from
them. -/
theorem recoverText_intText (cast : t.cast = .number) (lower : -0x8000000000000000 ≤ n)
    (upper : n < 0x10000000000000000) :
    ∃ v, t.recoverText (Number.intText n) = .ok v ∧
      (v = .num (.int n lower upper) ↔ t.fallback = some (.num (.int n lower upper)) ∨
        n < 0x8000000000000000 ∧ Double.Exact n ∧
          ∀ d, t.fallback = some d → d.inline ≠ Number.intText n) := by
  obtain ⟨x, hx, -, hexact⟩ := Cast.exists_apply_inline_int lower upper
  rw [Cast.inline_int, ← cast, ← applyCast_eq_ok_iff] at hx
  unfold recoverText
  cases hd : t.fallback with
  | none => exact ⟨_, hx, by simp [hexact]⟩
  | some d =>
      by_cases hinline : d.inline = Number.intText n
      · exact ⟨d, if_pos hinline, by simp [hinline]⟩
      · refine ⟨_, (if_neg hinline).trans hx, ?_⟩
        have hne : d ≠ .num (.int n lower upper) := fun hd => hinline (by rw [hd]; rfl)
        simp [hexact, hinline, hne]

end Token

/-! ## One line -/

namespace Line

variable {l : Line} {data v : Json} {t : Token} {placed : List (Token × Json)}

theorem oneCut_of_one (one : l.tokens.length = 1) : l.OneCut data :=
  fun _ _ _ _ => eq_of_weaving_eq_of_one one

/-- **From a text with one cut each token gets its own text back.** -/
theorem exists_mem_values_of_oneCut [Engine] (notWhole : l.whole? = none) (oneCut : l.OneCut data)
    (hfill : l.fill data = .ok v) (hvalues : l.values (some v) = .ok placed) (ht : t ∈ l.tokens) :
    ∃ r c, t.resolve data = .ok r ∧ t.recoverText r.inline = .ok c ∧ (t, c) ∈ placed := by
  obtain ⟨s, values, rfl, hresolve, captured⟩ := exists_captured_of_oneCut notWhole oneCut hfill
  rcases values_cases hvalues with ⟨hnone, -⟩ | ⟨_, _, _, whole, -⟩ |
    ⟨-, -, s', texts, hs, htexts, hplaced⟩
  · rcases hnone with hnil | hnone
    · rw [hnil] at ht
      cases ht
    · cases hnone
  · rw [notWhole] at whole
    cases whole
  · obtain rfl : s = s' := by simpa [producedText?, Json.isNull, Json.inline] using hs
    cases captured.symm.trans htexts
    have hlength : l.tokens.length = (values.map Json.inline).length := by
      rw [List.length_map, hresolve.length_eq]
    rw [← List.map_fst_zip (Nat.le_of_eq hlength)] at ht
    obtain ⟨pair, hpair, rfl⟩ := List.mem_map.1 ht
    obtain ⟨r, hr, hinline⟩ := exists_resolve_of_mem_zip hresolve hpair
    obtain ⟨c, hc, htoken, hrecover⟩ := exists_right_of_forall₂ hplaced hpair
    exact ⟨r, c.2, hr, hinline ▸ hrecover, htoken ▸ hc⟩

/-- Each token in the text can be read back from its own text: its cast leaves texts alone, or it is
cast to a number and becomes an integer. -/
structure Countable (l : Line) (data : Json) : Prop where
  notWhole : l.whole? = none
  oneCut : l.OneCut data
  each : ∀ t ∈ l.tokens, (t.cast = .asIs ∨ t.cast = .string) ∨
    t.cast = .number ∧ ∃ n lower upper, t.resolve data = .ok (.num (.int n lower upper))

/-- From what such a line became, values are recovered. -/
theorem Countable.exists_recover [Engine] (countable : l.Countable data) (accepted : l.Accepted)
    (hl : l.WellFormed) (place : ∀ t ∈ l.tokens, t.Placeable) (h : l.fill data = .ok v) :
    ∃ placed, l.recover (some v) = .ok (gather placed) := by
  obtain ⟨s, values, rfl, hresolve, captured⟩ :=
    exists_captured_of_oneCut countable.notWhole countable.oneCut h
  obtain ⟨placed, -, hrecover, -⟩ := exists_recover_text (p := fun _ _ => True) countable.notWhole
    accepted captured (by rw [List.length_map, hresolve.length_eq])
    (fun t ht => ⟨(place t ht).readPath, (place t ht).assignable.bounded⟩) fun pair hpair => by
      have ht := (List.of_mem_zip hpair).1
      obtain ⟨r, hr, hinline⟩ := exists_resolve_of_mem_zip hresolve hpair
      rcases countable.each pair.1 ht with cast | ⟨cast, n, lower, upper, hn⟩
      · obtain ⟨v, hv⟩ := Token.exists_returns cast (hl pair.1 ht) pair.2
        exact ⟨v, hv.recovers, trivial⟩
      · cases hr.symm.trans hn
        obtain ⟨v, hv, -⟩ := Token.recoverText_intText cast lower upper
        exact ⟨v, hinline ▸ hv, trivial⟩
  exact ⟨placed, hrecover⟩

end Line

/-! ## The template -/

theorem Linear.sublist {tokens tokens' : List Token} (linear : Linear tokens)
    (sublist : tokens'.Sublist tokens) : Linear tokens' where
  place t ht := linear.place t (sublist.subset ht)
  apart := linear.apart.sublist sublist

namespace Template

variable {o : Options} {t : Template} {lines : List Line} {data data' result : Json}

/-- **At the path of a token in a text with one cut lies what the token gives back from its own
text.** -/
theorem exists_walk?_recover [Engine] (ht : t.WellFormed) (hdata : data.WellFormed)
    (hlines : t.lines o.delimiters = .ok lines) (linear : Linear (lines.flatMap Line.tokens))
    (hfill : fill o.strict data t = .ok result) (h : recover o.delimiters t result = .ok data')
    {l : Line} (hl : l ∈ lines) (notWhole : l.whole? = none) (oneCut : l.OneCut data)
    {token : Token} (htoken : token ∈ l.tokens) :
    ∃ r c, token.resolve data = .ok r ∧ token.recoverText r.inline = .ok c ∧
      data'.walk? token.target = some c := by
  obtain ⟨placed, hplaced, rfl⟩ := recover_eq_ok_iff.1 h
  -- the line is that of a leaf, which gives back the values of the line
  obtain ⟨leaf, hleaf, hline⟩ := exists_left_of_forall₂ ((lines_eq_ok_iff (some result)).1 hlines) hl
  obtain ⟨v, hv, hstring⟩ := fillString_of_mem_leaves ht hfill hleaf
  obtain ⟨l', hl', hv'⟩ := (fillString_eq_ok_iff rfl).1 hstring
  cases hline.symm.trans hl'
  obtain ⟨values, hmem, l', hl', hvalues, -⟩ := exists_right_of_forall₂ hplaced hleaf
  cases hline.symm.trans hl'
  rw [hv] at hvalues
  obtain ⟨r, c, hr, hc, hcmem⟩ :=
    Line.exists_mem_values_of_oneCut notWhole oneCut hv' hvalues htoken
  obtain ⟨lines', hlines', htokens⟩ := exists_lines_of_givesBack hplaced
  cases hlines.symm.trans hlines'
  have carries := carries_merged (linear.sublist (sublist_tokens (htokens.imp fun _ _ h => h.1)))
    fun c hc => by
      obtain ⟨values, hvalues, hc⟩ := List.mem_flatten.1 hc
      have hresult := wellFormed_of_fill rfl ht hdata hfill
      exact (gatherable_of_givesBack hresult hplaced values hvalues c hc).2
  exact ⟨r, c, hr, hc, carries.holds (placement (token, c))
    (List.mem_map_of_mem (List.mem_flatten.2 ⟨values, hmem, hcmem⟩))⟩

/-- **From a tree that such a template became data is recovered.** -/
theorem exists_recover_of_countable [Engine] (ht : t.WellFormed) (hdata : data.WellFormed)
    (hlines : t.lines o.delimiters = .ok lines) (linear : Linear (lines.flatMap Line.tokens))
    (hfill : fill o.strict data t = .ok result)
    (accepted : ∀ l ∈ lines, l.Accepted) (each : ∀ l ∈ lines, l.MildCasts ∨ l.Countable data) :
    ∃ data', recover o.delimiters t result = .ok data' := by
  obtain ⟨placed, -, hrecover⟩ := exists_recover (o := o.strict) (p := fun _ _ => True) ht
    rfl hlines hfill fun l hl v hv => by
      have wf := wellFormed_of_mem_lines hlines hl
      have place : ∀ t ∈ l.tokens, t.Placeable := fun t ht =>
        linear.place t (List.mem_flatMap.2 ⟨l, hl, ht⟩)
      rcases each l hl with casts | countable
      · obtain ⟨placed, restores⟩ := Line.exists_restores casts (accepted l hl) place wf hdata hv
        exact ⟨placed, restores.recover, trivial⟩
      · obtain ⟨placed, hrecover⟩ := countable.exists_recover (accepted l hl) wf place hv
        exact ⟨placed, hrecover, trivial⟩
  exact ⟨_, hrecover⟩

/-- **An integer comes back from its text exactly if it fits 64 bits with a sign and is a double.**
Otherwise a cast to a number gives the number of the nearest double. So an integer that a token in a
text of a template became is recovered unchanged if it is of this kind and no default has the same
text, or if it is the default. That data is recovered at all needs an engine that takes the patterns
of the strings. -/
theorem recover_integer [Engine] (lower : -0x8000000000000000 ≤ n) (upper : n < 0x10000000000000000) :
    (∃ x : Double,
      Cast.number.apply (.str (String.ofList (Json.num (.int n lower upper)).inline)) =
          .ok (.num (.ofDouble x)) ∧
        x.IsNearest n ∧
        (Number.ofDouble x = .int n lower upper ↔
          n < 0x8000000000000000 ∧ Double.Exact n)) ∧
    ∀ (o : Options) (t : Template) (lines : List Line) (data result : Json),
      t.WellFormed → data.WellFormed → t.lines o.delimiters = .ok lines →
      Linear (lines.flatMap Line.tokens) → fill o.strict data t = .ok result →
        ((∀ l ∈ lines, l.Accepted) → (∀ l ∈ lines, l.MildCasts ∨ l.Countable data) →
          ∃ data', recover o.delimiters t result = .ok data') ∧
        ∀ data', recover o.delimiters t result = .ok data' →
          ∀ l ∈ lines, l.whole? = none → l.OneCut data → ∀ token ∈ l.tokens,
            token.cast = .number →
            data.get? token.target = some (.num (.int n lower upper)) →
              (data'.get? token.target = some (.num (.int n lower upper)) ↔
                token.fallback = some (.num (.int n lower upper)) ∨
                  n < 0x8000000000000000 ∧ Double.Exact n ∧
                    ∀ d, token.fallback = some d → d.inline ≠ Number.intText n) := by
  refine ⟨Cast.exists_apply_inline_int lower upper, ?_⟩
  intro o t lines data result ht hdata hlines linear hfill
  refine ⟨exists_recover_of_countable ht hdata hlines linear hfill, ?_⟩
  intro data' hrecover l hl notWhole oneCut token htoken cast hn
  obtain ⟨r, c, hr, hc, hwalk⟩ :=
    exists_walk?_recover ht hdata hlines linear hfill hrecover hl notWhole oneCut htoken
  have place := linear.place token (List.mem_flatMap.2 ⟨l, hl, htoken⟩)
  have hresolve : token.resolve data = .ok (.num (.int n lower upper)) :=
    (Token.resolve_of_get? place.readPath (fun h => by cases h) hn).trans
      (Token.applyCast_num cast _)
  cases hr.symm.trans hresolve
  obtain ⟨v, hv, hiff⟩ := Token.recoverText_intText cast lower upper
  cases hc.symm.trans hv
  rw [Json.get?_of_walk? hwalk, Option.some.injEq]
  exact hiff

/-- A template with one token in a text, which is cast to a number. -/
def tally : Template :=
  .str "n=<number:n>"

/-- The token of the tally. -/
def tallyToken : Token :=
  ⟨.number, "n".toList, none, "n".toList, "<number:n>".toList⟩

/-- The line of the tally. -/
def tallyLine : Line :=
  ⟨[("n=".toList, tallyToken)], []⟩

/-- The data of the tally. -/
def tallyData : Json :=
  .obj [("n", .num (.int 9007199254740994 (by decide) (by decide)))]

theorem countable_tally : tallyLine.Countable tallyData where
  notWhole := rfl
  oneCut := Line.oneCut_of_one rfl
  each t ht := by
    cases List.mem_singleton.1 ht
    exact .inr ⟨rfl, 9007199254740994, by decide, by decide, by with_unfolding_all rfl⟩

theorem recover_integer_tally :
    ∃ data', recover angles.delimiters tally (.str "n=9007199254740994") = .ok data' ∧
      data'.get? [.key "n"] = some (.num (.int 9007199254740994 (by decide) (by decide))) := by
  obtain ⟨-, hrecover⟩ := recover_integer (n := 9007199254740994) (by decide) (by decide)
  obtain ⟨⟨data', hdata'⟩, back⟩ := hrecover angles tally [tallyLine] tallyData
    (.str "n=9007199254740994") (by simp [tally, Json.WellFormed])
    (by simp [tallyData, Json.WellFormed]) (by with_unfolding_all rfl)
    (by decide +kernel) (by with_unfolding_all rfl) |>.imp_left fun h =>
      h (by decide +kernel) (by simpa using .inr countable_tally)
  refine ⟨data', hdata', ?_⟩
  have htarget : tallyToken.target = [.key "n"] := by decide +kernel
  rw [← htarget]
  have kept := back data' hdata' tallyLine List.mem_cons_self rfl countable_tally.oneCut tallyToken
    List.mem_cons_self rfl (by with_unfolding_all rfl)
  exact kept.2 (.inr ⟨by decide, by decide +kernel, fun _ hd => by cases hd⟩)

/-- The first integer that is no double: the one before it is recovered. -/
theorem apply_inline_odd :
    Cast.number.apply (.str (String.ofList
        (Json.num (.int 9007199254740993 (by decide) (by decide))).inline)) =
      .ok (.num (.int 9007199254740992 (by decide) (by decide))) ∧
    Cast.number.apply (.str (String.ofList
        (Json.num (.int 9007199254740993 (by decide) (by decide))).inline)) ≠
      .ok (.num (.int 9007199254740993 (by decide) (by decide))) := by
  have reads : Double.Reads ⟨false, 0x4340000000000000, by decide⟩ 9007199254740993 :=
    ⟨by decide, by decide +kernel⟩
  have hodd : Number.ofDouble ⟨false, 0x4340000000000000, by decide⟩ =
      .int 9007199254740992 (by decide) (by decide) := by decide +kernel
  rw [Cast.apply_inline_int reads, hodd]
  exact ⟨rfl, by simp⟩

end Template

end Stencil
