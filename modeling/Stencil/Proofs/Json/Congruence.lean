import Stencil.Proofs.Json.Assign
import Stencil.Proofs.Json.Same

/-!
# Operations on trees that are the same value

Looking up, assigning and merging do not see the order of members: from well-formed
trees that are the same value they make such trees again (`Same.get?`, `Same.merge`,
`Same.assign`).

A lookup finds the same value on both sides, or nothing on either.  The rest is told
step by step: what lies one step into a merge or an assignment depends only on what lies
one step into the trees it is made from, and that is all that equality of values asks
for.
-/

set_option autoImplicit false

namespace Stencil.Json

/-! ## The same value on both sides -/

section Both

variable {r : Json → Json → Prop} {a b : Option Json}

theorem both_iff :
    Both r a b ↔ (a = none ∧ b = none) ∨ ∃ v w, a = some v ∧ b = some w ∧ r v w := by
  cases a <;> cases b <;> simp [Both]

theorem Both.bind {f g : Json → Option Json} (h : Both r a b)
    (hfg : ∀ v w, r v w → Both r (f v) (g w)) : Both r (a.bind f) (b.bind g) := by
  rcases both_iff.1 h with ⟨rfl, rfl⟩ | ⟨v, w, rfl, rfl, hvw⟩
  · trivial
  · exact hfg v w hvw

end Both

variable {t v v' w w' : Json}

/-- The trees are well-formed, and they are the same value. -/
structure Same (v w : Json) : Prop where
  left : v.WellFormed
  right : w.WellFormed
  same : v.same w = true

namespace Same

theorem refl (hv : v.WellFormed) : v.Same v where
  left := hv
  right := hv
  same := same_refl hv

theorem symm (h : v.Same w) : w.Same v where
  left := h.right
  right := h.left
  same := same_symm h.left h.right h.same

theorem trans (h : t.Same v) (h' : v.Same w) : t.Same w where
  left := h.left
  right := h'.right
  same := same_trans h.left h.right h'.right h.same h'.same

theorem alike (h : v.Same w) : Alike v w :=
  alike_of_same h.same

theorem isNull_eq (h : v.Same w) : v.isNull = w.isNull := by
  have alike := h.alike
  cases v <;> cases w <;> first | rfl | exact alike.elim

/-- One step into trees that are the same lies the same value, or nothing. -/
theorem step? (h : v.Same w) (s : Segment) : Both Same (v.step? s) (w.step? s) := by
  rcases both_iff.1 (((same_iff h.left h.right).1 h.same).2 s) with
    ⟨hv, hw⟩ | ⟨x, y, hv, hw, hxy⟩
  · rw [hv, hw]
    trivial
  · rw [hv, hw]
    exact ⟨h.left.step? hv, h.right.step? hw, hxy⟩

/-- Well-formed trees that are alike are the same if the same lies one step into them. -/
theorem of_step? (hv : v.WellFormed) (hw : w.WellFormed) (alike : Alike v w)
    (steps : ∀ s, Both Same (v.step? s) (w.step? s)) : v.Same w where
  left := hv
  right := hw
  same := by
    refine (same_iff hv hw).2 ⟨alike, fun s => ?_⟩
    rcases both_iff.1 (steps s) with ⟨hx, hy⟩ | ⟨x, y, hx, hy, hxy⟩
    · rw [hx, hy]
      trivial
    · rw [hx, hy]
      exact hxy.same

end Same

/-! ## Looking up -/

theorem lookup_fields (v : Json) (k : String) : v.fields.lookup k = v.step? (.key k) := by
  cases v <;> rfl

theorem getElem?_items (v : Json) (i : Nat) : v.items[i]? = v.step? (.index i) := by
  cases v <;> rfl

theorem Same.child? (h : v.Same w) (s : Segment) : Both Same (v.child? s) (w.child? s) := by
  have steps := h.step?
  have alike := h.alike
  cases v <;> cases w <;> try exact alike.elim
  case obj.obj fs gs =>
    cases s with
    | key k => exact steps (.key k)
    | index i => exact steps (.key _)
  case arr.arr xs ys =>
    have elements : ∀ i, Both Same (xs[i]? : Option Json) ys[i]? := fun i => steps (.index i)
    cases s with
    | index i => exact elements i
    | key k =>
        rw [Json.child?, Json.child?]
        cases indexOfText? k.toList with
        | none => trivial
        | some i => exact elements i
  all_goals simp [Json.child?, Both]

/-- **Trees that are the same value hold the same value at the end of any path, or nothing.** -/
theorem Same.get? (h : v.Same w) (p : Path) : Both Same (v.get? p) (w.get? p) := by
  induction p generalizing v w with
  | nil => exact h
  | cons s p ih => exact (h.child? s).bind fun x y hxy => ih hxy

/-! ## Merging -/

theorem both_overlay {s : Segment} {a a' b b' : Option Json} (ha : Both Same a a')
    (hb : Both Same b b')
    (hmerge : ∀ x x' y y' : Json, b = some y → x.Same x' → y.Same y' → (x.merge y).Same (x'.merge y')) :
    Both Same (overlay s a b) (overlay s a' b') := by
  rcases both_iff.1 hb with ⟨rfl, rfl⟩ | ⟨y, y', rfl, rfl, hyy⟩
  · simpa using ha
  · rcases both_iff.1 ha with ⟨rfl, rfl⟩ | ⟨x, x', rfl, rfl, hxx⟩
    · exact hb
    · have hole_eq : hole s y = hole s y' := by
        cases s with
        | key k => rfl
        | index i => rw [hole_index, hole_index, hyy.isNull_eq]
      rw [overlay, overlay, hole_eq]
      split
      · exact hxx
      · exact hmerge x x' y y' rfl hxx hyy

/-- **Merging gives the same value for the same values.** -/
theorem Same.merge (h : v.Same v') (hs : w.Same w') : (v.merge w).Same (v'.merge w') := by
  induction w using stepInduction generalizing v v' w' with
  | step w ih =>
      by_cases alike : Alike v w
      · have alike' : Alike v' w' := (h.alike.symm.trans alike).trans hs.alike
        refine .of_step? (wellFormed_merge h.left hs.left) (wellFormed_merge h.right hs.right) ?_ ?_
        · exact ((merge_alike v w).trans hs.alike).trans (merge_alike v' w').symm
        · intro s
          rw [step?_merge hs.left alike, step?_merge hs.right alike']
          exact both_overlay (h.step? s) (hs.step? s) fun x x' y y' hy hxx hyy => ih s y hy hxx hyy
      · have notAlike : ¬ Alike v' w' := fun alike' =>
          alike ((h.alike.trans alike').trans hs.alike.symm)
        rw [merge_of_not_alike alike, merge_of_not_alike notAlike]
        exact hs

/-- Merging part after part gives the same value for the same values. -/
theorem Same.foldl_merge {parts parts' : List Json} (h : v.Same v')
    (hs : List.Forall₂ Same parts parts') :
    (parts.foldl Json.merge v).Same (parts'.foldl Json.merge v') :=
  List.rel_foldl (fun _ _ h _ _ hs => h.merge hs) h hs

/-! ## Assigning -/

/-- What lies at the end of any other step does not depend on what is assigned. -/
theorem step?_assign_eq {s s' : Segment} {p : Path} (h : Path.Bounded (s :: p)) (hne : s' ≠ s)
    (v w : Json) :
    (assign v (s :: p) t).tree.step? s' = (assign w (s :: p) t).tree.step? s' := by
  cases s with
  | key k =>
      cases s' with
      | key l =>
          have hlk : l ≠ k := fun hlk => hne (by rw [hlk])
          simp only [assign, step?, lookup_putKey_of_ne _ _ hlk]
      | index j => rfl
  | index i =>
      rw [assign, assign, if_neg (Nat.not_lt.2 h.head), if_neg (Nat.not_lt.2 h.head)]
      cases s' with
      | key l => rfl
      | index j =>
          have hji : j ≠ i := fun hji => hne (by rw [hji])
          simp only [step?, getElem?_putIndex, if_neg hji]

/-- **Assigning the same value at a path of a tree gives the same value.** -/
theorem Same.assign {p : Path} (h : v.Same w) (bounded : p.Bounded) (ht : t.WellFormed) :
    (Json.assign v p t).tree.Same (Json.assign w p t).tree := by
  induction p generalizing t with
  | nil => exact h
  | cons s p ih =>
      have hw := wellFormed_assign bounded h.right ht
      refine .of_step? (wellFormed_assign bounded h.left ht) hw ?_ fun s' => ?_
      · exact (admits_assign bounded).alike (admits_assign bounded)
      · by_cases hs : s' = s
        · subst hs
          rw [step?_assign_self bounded, step?_assign_self bounded]
          refine ih bounded.tail ?_
          cases hold : t.step? s' with
          | none => exact wellFormed_null
          | some old => exact ht.step? hold
        · rw [step?_assign_eq bounded hs v w]
          cases hold : (Json.assign w (s :: p) t).tree.step? s' with
          | none => trivial
          | some old => exact .refl (hw.step? hold)

end Stencil.Json
