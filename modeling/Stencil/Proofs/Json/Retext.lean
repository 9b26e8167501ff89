import Stencil.Proofs.Json.Congruence

/-!
# Trees with their strings replaced

Every string of a tree can be replaced by a tree (`Template.mapStrings`).  If it is
replaced by a string again (`retext`), the shape of the tree stays, and looking up,
assigning and merging do not see the difference: they look at the shape alone
(`get?_retext`, `assign_retext`, `merge_retext`).
-/

set_option autoImplicit false

namespace Stencil

namespace Template

mutual

/-- The template with every string replaced. -/
def mapStrings (g : String → Json) : Json → Json
  | .str s => g s
  | .arr xs => .arr (mapStringsItems g xs)
  | .obj fs => .obj (mapStringsFields g fs)
  | v => v

/-- The elements with every string replaced. -/
def mapStringsItems (g : String → Json) : List Json → List Json
  | [] => []
  | x :: xs => mapStrings g x :: mapStringsItems g xs

/-- The members with every string in their values replaced. -/
def mapStringsFields (g : String → Json) : List (String × Json) → List (String × Json)
  | [] => []
  | (k, v) :: fs => (k, mapStrings g v) :: mapStringsFields g fs

end

end Template

namespace Json

variable {g : String → String} {v w : Json}

/-- The tree with every string in it replaced by another string. -/
def retext (g : String → String) (v : Json) : Json :=
  Template.mapStrings (fun s => .str (g s)) v

/-- The members with every string in their values replaced. -/
def retextFields (g : String → String) (fs : List (String × Json)) : List (String × Json) :=
  fs.map fun f => (f.1, retext g f.2)

@[simp] theorem retext_str (s : String) : retext g (str s) = str (g s) := by
  rw [retext, Template.mapStrings]

@[simp] theorem retext_null : retext g null = null := by
  rw [retext, Template.mapStrings] <;> simp

@[simp] theorem retext_arr (xs : List Json) : retext g (arr xs) = arr (xs.map (retext g)) := by
  have items : ∀ xs, Template.mapStringsItems (fun s => .str (g s)) xs = xs.map (retext g) := by
    intro xs
    induction xs with
    | nil => rfl
    | cons x xs ih => rw [Template.mapStringsItems, ih, List.map_cons, retext]
  rw [retext, Template.mapStrings, items]

@[simp] theorem retext_obj (fs : List (String × Json)) :
    retext g (obj fs) = obj (retextFields g fs) := by
  have fields : ∀ fs, Template.mapStringsFields (fun s => .str (g s)) fs = retextFields g fs := by
    intro fs
    induction fs with
    | nil => rfl
    | cons f fs ih =>
        rw [Template.mapStringsFields, ih, retextFields, retextFields, List.map_cons, retext]
  rw [retext, Template.mapStrings, fields]

theorem isNull_retext (v : Json) : (retext g v).isNull = v.isNull := by
  cases v <;> simp [retext, Template.mapStrings, isNull]

/-! ## Looking up -/

theorem lookup_retextFields (k : String) (fs : List (String × Json)) :
    (retextFields g fs).lookup k = (fs.lookup k).map (retext g) := by
  induction fs with
  | nil => rfl
  | cons f fs ih =>
      obtain ⟨l, w⟩ := f
      rw [retextFields, List.map_cons, List.lookup_cons, List.lookup_cons]
      cases k == l with
      | true => rfl
      | false => exact ih

theorem fields_retext (v : Json) : (retext g v).fields = retextFields g v.fields := by
  cases v <;> simp [fields] <;> rfl

theorem items_retext (v : Json) : (retext g v).items = v.items.map (retext g) := by
  cases v <;> simp [items] <;> rfl

theorem step?_retext (v : Json) (s : Segment) :
    (retext g v).step? s = (v.step? s).map (retext g) := by
  cases s with
  | key k => rw [← lookup_fields, ← lookup_fields, fields_retext, lookup_retextFields]
  | index i => rw [← getElem?_items, ← getElem?_items, items_retext, List.getElem?_map]

theorem child?_retext (v : Json) (s : Segment) :
    (retext g v).child? s = (v.child? s).map (retext g) := by
  cases v with
  | obj fs => cases s <;> simp [child?, lookup_retextFields]
  | arr xs =>
      cases s with
      | key k =>
          simp only [retext_arr, child?, List.getElem?_map, Option.map_bind]
          rfl
      | index i => simp [child?]
  | null | bool _ | num _ | str _ => rfl

/-- What lies at the end of a path has its strings replaced. -/
theorem get?_retext (v : Json) (p : Path) : (retext g v).get? p = (v.get? p).map (retext g) := by
  induction p generalizing v with
  | nil => rfl
  | cons s p ih =>
      rw [get?_cons, get?_cons, child?_retext, Option.bind_map, Option.map_bind]
      exact congrArg _ (funext fun w => ih w)

/-! ## Merging and assigning -/

theorem putKey_retext (k : String) (v : Json) (fs : List (String × Json)) :
    putKey k (retext g v) (retextFields g fs) = retextFields g (putKey k v fs) := by
  induction fs with
  | nil => rfl
  | cons f fs ih =>
      obtain ⟨l, w⟩ := f
      rw [retextFields, List.map_cons, putKey, putKey]
      split
      · rfl
      · exact congrArg _ ih

theorem putIndex_retext (v : Json) (i : Nat) (xs : List Json) :
    putIndex (retext g v) i (xs.map (retext g)) = (putIndex v i xs).map (retext g) := by
  induction i generalizing xs with
  | zero => cases xs <;> rfl
  | succ i ih =>
      cases xs with
      | nil => rw [List.map_nil, putIndex, putIndex, List.map_cons, ← ih, retext_null]; rfl
      | cons x xs => rw [List.map_cons, putIndex, putIndex, List.map_cons, ih]

theorem mergeFields_retext {gs : List (String × Json)}
    (h : ∀ f ∈ gs, ∀ v, (retext g v).merge (retext g f.2) = retext g (v.merge f.2))
    (fs : List (String × Json)) :
    mergeFields (retextFields g fs) (retextFields g gs) = retextFields g (mergeFields fs gs) := by
  induction gs generalizing fs with
  | nil => rw [mergeFields]; rfl
  | cons f gs ih =>
      obtain ⟨hf, hgs⟩ := List.forall_mem_cons.1 h
      obtain ⟨k, w⟩ := f
      rw [mergeFields, ← ih hgs, ← putKey_retext, show retextFields g ((k, w) :: gs) =
        (k, retext g w) :: retextFields g gs from rfl, mergeFields, lookup_retextFields]
      cases fs.lookup k with
      | none => rfl
      | some old => exact congrArg (fun old => mergeFields (putKey k old _) _) (hf old)

theorem mergeItems_retext {ys : List Json}
    (h : ∀ y ∈ ys, ∀ v, (retext g v).merge (retext g y) = retext g (v.merge y)) (xs : List Json) :
    mergeItems (xs.map (retext g)) (ys.map (retext g)) = (mergeItems xs ys).map (retext g) := by
  induction ys generalizing xs with
  | nil => simp [mergeItems]
  | cons y ys ih =>
      obtain ⟨hy, hys⟩ := List.forall_mem_cons.1 h
      cases xs with
      | nil => simp [mergeItems]
      | cons x xs =>
          rw [List.map_cons, List.map_cons, mergeItems, mergeItems, List.map_cons, ih hys,
            isNull_retext, hy]
          split <;> rfl

/-- **Merging does not look at the strings.** -/
theorem merge_retext (v w : Json) : (retext g v).merge (retext g w) = retext g (v.merge w) := by
  induction w using memberInduction generalizing v with
  | obj gs ih =>
      cases v <;> try rfl
      case obj fs => simp [mergeFields_retext ih]
  | arr ys ih =>
      cases v <;> try rfl
      case arr xs => simp [mergeItems_retext ih]
  | null => cases v <;> rfl
  | bool b => cases v <;> rfl
  | num n => cases v <;> rfl
  | str s => cases v <;> rfl

theorem foldl_merge_retext (parts : List Json) (v : Json) :
    (parts.map (retext g)).foldl merge (retext g v) = retext g (parts.foldl merge v) := by
  induction parts generalizing v with
  | nil => rfl
  | cons part parts ih => rw [List.map_cons, List.foldl_cons, merge_retext, ih, List.foldl_cons]

/-- **Assigning does not look at the strings.** -/
theorem assign_retext (v : Json) (p : Path) (t : Json) :
    (assign (retext g v) p (retext g t)).tree = retext g (assign v p t).tree := by
  induction p generalizing t with
  | nil => rfl
  | cons s p ih =>
      cases s with
      | key k =>
          have inner : ((retext g t).fields.lookup k).getD null =
              retext g ((t.fields.lookup k).getD null) := by
            rw [fields_retext, lookup_retextFields]
            cases t.fields.lookup k <;> simp
          simp only [assign]
          rw [inner, ih, fields_retext, putKey_retext, retext_obj]
      | index i =>
          have inner : ((retext g t).items[i]?).getD null = retext g ((t.items[i]?).getD null) := by
            rw [items_retext, List.getElem?_map]
            cases t.items[i]? <;> simp
          by_cases hi : maxIndex < i
          · simp only [assign, if_pos hi]
          · simp only [assign, if_neg hi]
            rw [inner, ih, items_retext, putIndex_retext, retext_arr]

/-! ## The same value -/

theorem wellFormed_retext (h : v.WellFormed) : (retext g v).WellFormed := by
  induction v using stepInduction with
  | step v ih =>
      refine wellFormed_iff.2 ⟨?_, fun s w hw => ?_⟩
      · rw [fields_retext, retextFields, List.map_map]
        exact (wellFormed_iff.1 h).1
      · rw [step?_retext] at hw
        obtain ⟨w', hw', rfl⟩ := Option.map_eq_some_iff.1 hw
        exact ih s w' hw' (h.step? hw')

theorem alike_retext (h : Alike v w) : Alike (retext g v) (retext g w) := by
  cases v <;> cases w <;> simp_all [Alike, retext, Template.mapStrings]

/-- Trees that are the same value still are with their strings replaced. -/
theorem Same.retext (h : v.Same w) : (retext g v).Same (retext g w) := by
  induction v using stepInduction generalizing w with
  | step v ih =>
      refine .of_step? (wellFormed_retext h.left) (wellFormed_retext h.right)
        (alike_retext h.alike) fun s => ?_
      rw [step?_retext, step?_retext]
      rcases both_iff.1 (h.step? s) with ⟨hv, hw⟩ | ⟨x, y, hx, hy, hxy⟩
      · rw [hv, hw]
        trivial
      · rw [hx, hy]
        exact ih s x hx hxy

end Json

end Stencil
