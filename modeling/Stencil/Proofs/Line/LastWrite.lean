import Stencil.Proofs.Line.Gather
import Stencil.Proofs.Template.Linear

/-!
# The last token that writes to a place

Several tokens of a string may write to one place, or to places of which one lies
inside the other.  What the recovered fragment holds at the path of a token is the
value that was recovered for it, if that value is a scalar and no later token writes
to the place (`get?_target_of_recoverString`).  So of several tokens with one path
the last one decides.

There is one way to lose a value.  A null at an index looks like a hole, and a
hole never replaces anything, so a token whose path ends with an index and whose
recovered value is null leaves what an earlier token put there
(`firstWrite_survives`).  Where its path ends with a key, or where the earlier tokens
put nothing at the place, null is held like any other scalar.
-/

set_option autoImplicit false

namespace Stencil

variable {d : Delimiters} {source : String} {produced : Option Json} {fragment : Json}

/-- **The fragment holds, at the path of a token, the scalar that was recovered for it** if the
paths of all later tokens diverge from that path; except that for null at an index it keeps what
earlier tokens put there, if they put anything there. -/
theorem get?_target_of_recoverString [Engine] {l : Line} {before after : List (Token × Json)} {t : Token}
    {v : Json} (hproduced : ∀ r, produced = some r → r.WellFormed)
    (h : recoverString d source produced = .ok fragment)
    (hline : Line.ofText d source.toList = .ok l)
    (hvalues : l.values produced = .ok (before ++ (t, v) :: after)) (scalar : v.IsScalar)
    (later : ∀ c ∈ after, c.1.target.Diverges t.target) :
    ((v = .null → t.target.EndsWithKey ∨ ∀ c ∈ before, c.1.target.Diverges t.target) →
        fragment.get? t.target = some v) ∧
      (v = .null → ¬ t.target.EndsWithKey → ∀ w, (gather before).walk? t.target = some w →
        fragment.get? t.target = some w) ∧
      (v = .null → (gather before).walk? t.target = none →
        fragment.get? t.target = some .null) := by
  obtain ⟨l', placed, hline', hplaced, writable, rfl⟩ := recoverString_eq_ok_iff.1 h
  cases hline.symm.trans hline'
  cases hvalues.symm.trans hplaced
  have hwf := Line.wellFormed_values (Line.wellFormed_of_ofText hline) hproduced hvalues
  have ready : Gatherable (before ++ (t, v) :: after) := fun c hc => ⟨writable c hc, hwf c hc⟩
  refine ⟨fun kept => ?_, ?_, ?_⟩
  · apply Json.get?_of_walk?
    apply walk?_gather ready later
    by_cases hnull : v = .null
    · exact (kept hnull).imp (fun key => ⟨scalar, fun _ => key⟩) id
    · exact .inl ⟨scalar, fun h => absurd h hnull⟩
  · rintro rfl index w holds
    exact Json.get?_of_walk? (walk?_gather_of_hole ready later index holds)
  · rintro rfl nothing
    have vacant : (gather before).Vacant t.target := by
      intro w hw
      cases nothing.symm.trans hw
    exact Json.get?_of_walk? (walk?_gather_of_vacant ready later vacant)

/-! The second token writes null inside what the first one wrote, and the third writes beside it. -/

/-- The token that writes null. -/
def nullToken : Token :=
  ⟨.object, "a[0].k".toList, none, "a[0].k".toList, "<object:a[0].k>".toList⟩

/-- The line of `<a[0]>,<object:a[0].k>,<a[1]>`. -/
def nestedWrites : Line :=
  ⟨[([], ⟨.asIs, "a[0]".toList, none, "a[0]".toList, "<a[0]>".toList⟩), ([','], nullToken),
    ([','], ⟨.asIs, "a[1]".toList, none, "a[1]".toList, "<a[1]>".toList⟩)], []⟩

/-- What its tokens stand for in the text `1,null,3`. -/
def nestedValues : List (Token × Json) :=
  nestedWrites.tokens.zip [.str "1", .null, .str "3"]

theorem values_nestedWrites :
    nestedWrites.values (some (.str "1,null,3")) = .ok nestedValues := by
  have captured : nestedWrites.captures (some (.str "1,null,3")) =
      .ok ["1".toList, "null".toList, "3".toList] := by decide +kernel
  unfold Line.values
  rw [captured]
  with_unfolding_all rfl

theorem get?_target_of_recoverString_nested :
    ∃ fragment, recoverString Template.angles.delimiters "<a[0]>,<object:a[0].k>,<a[1]>"
        (some (.str "1,null,3")) = .ok fragment ∧
      fragment.get? [.key "a", .index 0, .key "k"] = some .null := by
  have hline : Line.ofText Template.angles.delimiters "<a[0]>,<object:a[0].k>,<a[1]>".toList =
      .ok nestedWrites := by
    with_unfolding_all rfl
  have h := recoverString_eq_ok_iff.2
    ⟨_, _, hline, values_nestedWrites, by decide +kernel, rfl⟩
  have htarget : nullToken.target = [.key "a", .index 0, .key "k"] := by decide +kernel
  have held := @get?_target_of_recoverString _ _ _ _ _ _ (nestedValues.take 1) (nestedValues.drop 2)
    nullToken .null (by simp [Json.WellFormed]) h hline values_nestedWrites trivial
    (by decide +kernel)
  rw [htarget] at held
  exact ⟨_, h, held.1 fun _ => .inl ⟨"k", rfl⟩⟩

/-- The line of `<a[0]>/<object:a[0]>`. -/
def writtenTwice : Line :=
  ⟨[([], ⟨.asIs, "a[0]".toList, none, "a[0]".toList, "<a[0]>".toList⟩),
    (['/'], ⟨.object, "a[0]".toList, none, "a[0]".toList, "<object:a[0]>".toList⟩)], []⟩

/-- The value of the last token is null, but the fragment holds that of the first one. -/
theorem firstWrite_survives :
    Line.ofText Template.angles.delimiters "<a[0]>/<object:a[0]>".toList = .ok writtenTwice ∧
      writtenTwice.values (some (.str "x/null")) =
        .ok (writtenTwice.tokens.zip [.str "x", .null]) ∧
      (∀ t ∈ writtenTwice.tokens, t.target = [.key "a", .index 0]) ∧
      ∃ fragment, recoverString Template.angles.delimiters "<a[0]>/<object:a[0]>"
          (some (.str "x/null")) = .ok fragment ∧
        fragment.get? [.key "a", .index 0] = some (.str "x") := by
  have hline : Line.ofText Template.angles.delimiters "<a[0]>/<object:a[0]>".toList =
      .ok writtenTwice := by
    with_unfolding_all rfl
  have hvalues : writtenTwice.values (some (.str "x/null")) =
      .ok (writtenTwice.tokens.zip [.str "x", .null]) := by
    with_unfolding_all rfl
  refine ⟨hline, hvalues, by decide +kernel, _,
    recoverString_eq_ok_iff.2 ⟨_, _, hline, hvalues, by decide +kernel, rfl⟩, ?_⟩
  with_unfolding_all rfl

end Stencil
