import Stencil.Proofs.Line.Gather
import Stencil.Proofs.Template.Linear

/-!
# Strings without tokens

A string without tokens gives an empty object, which is merged like the fragment of
any other string.  Into an object it brings nothing.  But the data may have become
an array, if a token before it has a path that starts with an index, and an array is
replaced by what is no array.

So what strings without tokens can do is told by a template in which each of them is
blanked out (`blank`).  They never decide whether recovering fails, nor with what
fault.  And they leave the data alone if no path in front of one of them starts with
an index (`recover_blank`).  Otherwise all that was recovered can be lost
(`recover_indexed`).
-/

set_option autoImplicit false

namespace Stencil

namespace Template

variable {d : Delimiters}

/-! ## Blanking out -/

/-- The line that the string denotes, if it denotes one. -/
def lineOf? (d : Delimiters) (s : String) : Option Line :=
  (Line.ofText d s.toList).toOption

/-- The string has no tokens. -/
def isPlain (d : Delimiters) (s : String) : Bool :=
  (lineOf? d s).any fun l => l.tokens.isEmpty

mutual

/-- The template with null for every string without tokens. -/
def blank (d : Delimiters) : Json → Json
  | .str s => if isPlain d s then .null else .str s
  | .arr xs => .arr (blankItems d xs)
  | .obj fs => .obj (blankFields d fs)
  | v => v

/-- The elements with null for every string without tokens. -/
def blankItems (d : Delimiters) : List Json → List Json
  | [] => []
  | x :: xs => blank d x :: blankItems d xs

/-- The members with null for every string without tokens. -/
def blankFields (d : Delimiters) : List (String × Json) → List (String × Json)
  | [] => []
  | (k, v) :: fs => (k, blank d v) :: blankFields d fs

end

/-- The leaves whose strings have tokens, and those whose strings denote no line. -/
def keepTokens (d : Delimiters) (leaves : List (String × Option Json)) :
    List (String × Option Json) :=
  leaves.filter fun leaf => !isPlain d leaf.1

theorem leavesItems_blankItems {xs ys : List Json}
    (h : ∀ x ∈ xs, ∀ r, leaves (blank d x) r = keepTokens d (leaves x r)) :
    leavesItems (blankItems d xs) ys = keepTokens d (leavesItems xs ys) := by
  induction xs generalizing ys with
  | nil => rfl
  | cons x xs ih =>
      obtain ⟨hx, hxs⟩ := List.forall_mem_cons.1 h
      rw [blankItems, leavesItems, leavesItems, hx, ih hxs]
      exact (List.filter_append _ _).symm

theorem leavesFields_blankFields {fs gs : List (String × Json)}
    (h : ∀ f ∈ fs, ∀ r, leaves (blank d f.2) r = keepTokens d (leaves f.2 r)) :
    leavesFields (blankFields d fs) gs = keepTokens d (leavesFields fs gs) := by
  induction fs with
  | nil => rfl
  | cons f fs ih =>
      obtain ⟨hf, hfs⟩ := List.forall_mem_cons.1 h
      obtain ⟨k, v⟩ := f
      rw [blankFields, leavesFields, leavesFields, hf, ih hfs]
      exact (List.filter_append _ _).symm

/-- **Blanking out takes away the leaves without tokens**, and leaves the others what they have
beside them. -/
theorem leaves_blank (t : Template) (r : Option Json) :
    leaves (blank d t) r = keepTokens d (leaves t r) := by
  induction t using Json.memberInduction generalizing r with
  | null => rfl
  | bool b => rfl
  | num n => rfl
  | str s =>
      rw [blank, leaves, keepTokens]
      cases hplain : isPlain d s with
      | true => simp [leaves, hplain]
      | false => simp [leaves, hplain]
  | arr xs ih => exact leavesItems_blankItems ih
  | obj fs ih => exact leavesFields_blankFields ih

/-! ## One leaf -/

variable {data fragment : Json} {leaf : String × Option Json}

theorem isPlain_iff {s : String} :
    isPlain d s = true ↔ ∃ l, Line.ofText d s.toList = .ok l ∧ l.tokens = [] := by
  unfold isPlain lineOf?
  cases Line.ofText d s.toList with
  | error fault => simp [Except.toOption]
  | ok l => simp [Except.toOption]

/-- A string without tokens gives an empty object. -/
theorem recoverString_of_isPlain [Engine] {s : String} {produced : Option Json} (h : isPlain d s = true) :
    recoverString d s produced = .ok (.obj []) := by
  obtain ⟨l, hline, htokens⟩ := isPlain_iff.1 h
  have hruns : l.runs = [] := List.map_eq_nil_iff.1 htokens
  rw [recoverString, hline, ok_bind, Line.recover, hruns]

theorem learn_of_isPlain [Engine] (h : isPlain d leaf.1 = true) :
    learn d data leaf = .ok (data.merge (.obj [])) := by
  rw [learn, recoverString_of_isPlain h]
  rfl

/-- No token of the string has a path that starts with an index. -/
def KeysOnly (d : Delimiters) (s : String) : Prop :=
  ∀ l ∈ lineOf? d s, ∀ t ∈ l.tokens, ¬ t.target.StartsWithIndex

instance (s : String) : Decidable (KeysOnly d s) :=
  inferInstanceAs (Decidable (∀ l ∈ lineOf? d s, ∀ t ∈ l.tokens, ¬ t.target.StartsWithIndex))

/-- What is learned from a string whose paths start with keys is an object. -/
theorem isObj_of_learn [Engine] {data' : Json} (keys : KeysOnly d leaf.1)
    (h : learn d data leaf = .ok data') : data'.isObj = true := by
  obtain ⟨fragment, hfragment, rfl⟩ := learn_eq_ok_iff.1 h
  obtain ⟨l, placed, hline, hvalues, writable, rfl⟩ := recoverString_eq_ok_iff.1 hfragment
  rw [Json.isObj_merge]
  apply isObj_gather
  intro c hc
  have hl : l ∈ lineOf? d leaf.1 := by
    rw [lineOf?, hline]
    rfl
  have hkey := keys l hl c.1 (Line.mem_tokens_of_values hvalues hc)
  exact Path.rooted_of_not_startsWithIndex (writable c hc).target_ne_nil hkey

/-! ## All leaves -/

variable {leaves : List (String × Option Json)}

theorem keepTokens_cons_of_isPlain (h : isPlain d leaf.1 = true) :
    keepTokens d (leaf :: leaves) = keepTokens d leaves :=
  List.filter_cons_of_neg (by simp [h])

theorem keepTokens_cons_of_not_isPlain (h : isPlain d leaf.1 = false) :
    keepTokens d (leaf :: leaves) = leaf :: keepTokens d leaves :=
  List.filter_cons_of_pos (by simp [h])

/-- Without the leaves that have no tokens, recovering fails with the same fault, whatever was
learned before. -/
theorem foldlM_keepTokens_eq_error_iff [Engine] {fault : Fault} (data data' : Json) :
    (keepTokens d leaves).foldlM (learn d) data = .error fault ↔
      leaves.foldlM (learn d) data' = .error fault := by
  induction leaves generalizing data data' with
  | nil => exact ⟨nofun, nofun⟩
  | cons leaf leaves ih =>
      rw [List.foldlM_cons]
      cases hplain : isPlain d leaf.1 with
      | true =>
          rw [keepTokens_cons_of_isPlain hplain, learn_of_isPlain hplain]
          exact ih data _
      | false =>
          rw [keepTokens_cons_of_not_isPlain hplain, List.foldlM_cons]
          unfold learn
          cases recoverString d leaf.1 leaf.2 with
          | error fault' => rfl
          | ok fragment => exact ih _ _

/-- Without the leaves that have no tokens the same is learned, if the data is an object wherever one
of them comes. -/
theorem foldlM_keepTokens [Engine]
    (keys : leaves.Pairwise fun leaf leaf' => isPlain d leaf'.1 = true → KeysOnly d leaf.1)
    (start : (∃ leaf ∈ leaves, isPlain d leaf.1 = true) → data.isObj = true) :
    (keepTokens d leaves).foldlM (learn d) data = leaves.foldlM (learn d) data := by
  induction leaves generalizing data with
  | nil => rfl
  | cons leaf leaves ih =>
      obtain ⟨hkeys, keysRest⟩ := List.pairwise_cons.1 keys
      rw [List.foldlM_cons]
      cases hplain : isPlain d leaf.1 with
      | true =>
          have hobj : data.isObj = true := start ⟨leaf, List.mem_cons_self, hplain⟩
          rw [keepTokens_cons_of_isPlain hplain, learn_of_isPlain hplain,
            Json.merge_obj_nil hobj]
          exact ih keysRest fun _ => hobj
      | false =>
          rw [keepTokens_cons_of_not_isPlain hplain, List.foldlM_cons]
          cases hlearn : learn d data leaf with
          | error fault => rfl
          | ok data' =>
              apply ih keysRest
              -- a later string without tokens makes the paths of this one start with keys
              rintro ⟨leaf', hleaf', hplain'⟩
              exact isObj_of_learn (hkeys leaf' hleaf' hplain') hlearn

/-- **Strings without tokens never make recovering fail, and never change what is recovered** if no
token in front of one of them has a path that starts with an index. -/
theorem recover_blank [Engine] (t : Template) (r : Json) :
    (∀ fault, recover d (blank d t) r = .error fault ↔ recover d t r = .error fault) ∧
      ((t.strings.Pairwise fun s s' => isPlain d s' = true → KeysOnly d s) →
        recover d (blank d t) r = recover d t r) := by
  unfold recover
  rw [leaves_blank]
  refine ⟨fun fault => foldlM_keepTokens_eq_error_iff _ _, ?_⟩
  intro keys
  rw [← map_fst_leaves t (some r), List.pairwise_map] at keys
  exact foldlM_keepTokens keys fun _ => rfl

/-- Text without tokens stands in front of a token whose path starts with an index. -/
def textFirst : Template :=
  .arr [.str "<a>/<b>", .str "plain", .str "<[0].c>"]

theorem recover_blank_textFirst :
    (textFirst.strings.Pairwise fun s s' =>
        isPlain angles.delimiters s' = true → KeysOnly angles.delimiters s) ∧
      recover angles.delimiters (blank angles.delimiters textFirst)
          (.arr [.str "1/2", .null, .str "3"]) =
        recover angles.delimiters textFirst (.arr [.str "1/2", .null, .str "3"]) := by
  have keys : textFirst.strings.Pairwise fun s s' =>
      isPlain angles.delimiters s' = true → KeysOnly angles.delimiters s := by
    decide +kernel
  exact ⟨keys, (recover_blank textFirst _).2 keys⟩

/-- Text without tokens stands behind a token whose path starts with an index. -/
def textLast : Template :=
  .arr [.str "<[0].a>", .str "plain"]

/-- The text loses what the token gave. -/
theorem recover_indexed :
    ∃ data data',
      recover angles.delimiters (blank angles.delimiters textLast)
          (.arr [.str "x", .str "plain"]) = .ok data ∧
        recover angles.delimiters textLast (.arr [.str "x", .str "plain"]) = .ok data' ∧
        data.same (.arr [.obj [("a", .str "x")]]) = true ∧ data'.same (.obj []) = true := by
  have blanked := @eq_ok_get _ _ (recover angles.delimiters (blank angles.delimiters textLast)
    (.arr [.str "x", .str "plain"])) (by decide +kernel)
  have whole := @eq_ok_get _ _ (recover angles.delimiters textLast
    (.arr [.str "x", .str "plain"])) (by decide +kernel)
  exact ⟨_, _, blanked, whole, by decide +kernel, by decide +kernel⟩

end Template

end Stencil
