import Stencil.Proofs.Line.Values

/-!
# What a gathering of values holds

The values of a line are gathered by merging their pieces in the order of the
tokens.  The gathering holds a value at the path of its token if no later token
disturbs it and nothing before it stands in the way (`walk?_gather`).  Tokens whose
paths diverge never disturb each other.  Earlier tokens do not stand in the way
either if their paths diverge from its path, and none does if the value prevails
over whatever it meets.  Null at an index is a hole, and leaves what the earlier
tokens put there (`walk?_gather_of_hole`).  If they put nothing there, null is held
like any other value (`walk?_gather_of_vacant`).
-/

set_option autoImplicit false

namespace Stencil

variable {placed before after : List (Token × Json)} {t : Token} {v fragment : Json} {p : Path}

/-- Every value can be put at the path of its token. -/
def Gatherable (placed : List (Token × Json)) : Prop :=
  ∀ c ∈ placed, c.1.Writable ∧ c.2.WellFormed

/-- Values at paths that diverge from the given one leave what lies at its end. -/
theorem walk?_foldl_piece (ready : Gatherable placed)
    (apart : ∀ c ∈ placed, c.1.target.Diverges p) (holds : fragment.walk? p = some v) :
    ((placed.map fun c => c.1.piece c.2).foldl Json.merge fragment).walk? p = some v := by
  induction placed generalizing fragment with
  | nil => exact holds
  | cons c placed ih =>
      obtain ⟨⟨writable, hwf⟩, hrest⟩ := List.forall_mem_cons.1 ready
      obtain ⟨hapart, apartRest⟩ := List.forall_mem_cons.1 apart
      exact ih hrest apartRest (Json.walk?_merge_of_avoids (writable.wellFormed_piece hwf) holds
        (writable.avoids_piece hapart))

theorem wellFormed_pieces (ready : Gatherable placed) :
    ∀ part ∈ placed.map fun c => c.1.piece c.2, part.WellFormed := by
  intro part hpart
  obtain ⟨c, hc, rfl⟩ := List.mem_map.1 hpart
  obtain ⟨writable, hwf⟩ := ready c hc
  exact writable.wellFormed_piece hwf

theorem wellFormed_gather (ready : Gatherable placed) : (gather placed).WellFormed :=
  Json.wellFormed_foldl_merge (by simp) (wellFormed_pieces ready)

/-- **A gathering has nothing at a place that lies neither on the path of one of its tokens nor
behind it.** -/
theorem vacant_gather (ready : Gatherable placed) (hp : p ≠ [])
    (off : ∀ c ∈ placed, ¬ c.1.target.Overlaps p) : (gather placed).Vacant p := by
  refine Json.Vacant.foldl_merge (Json.vacant_obj_nil hp) fun part hpart => ?_
  obtain ⟨c, hc, rfl⟩ := List.mem_map.1 hpart
  obtain ⟨writable, hwf⟩ := ready c hc
  exact ⟨writable.wellFormed_piece hwf, writable.vacant_piece (off c hc)⟩

theorem gather_append (before after : List (Token × Json)) :
    gather (before ++ after) =
      (after.map fun c => c.1.piece c.2).foldl Json.merge (gather before) := by
  rw [gather, gather, List.map_append, List.foldl_append]

/-- What is held at the end of a path when the last token there has put its value is held to the
end. -/
theorem walk?_gather_cons {w : Json} (ready : Gatherable (before ++ (t, v) :: after))
    (later : ∀ c ∈ after, c.1.target.Diverges p)
    (holds : ((gather before).merge (t.piece v)).walk? p = some w) :
    (gather (before ++ (t, v) :: after)).walk? p = some w := by
  rw [gather_append, List.map_cons, List.foldl_cons]
  refine walk?_foldl_piece (fun c hc => ?_) later holds
  exact ready c (List.mem_append_right _ (List.mem_cons_of_mem _ hc))

/-- **The gathering holds a value at a place where the earlier tokens put nothing**, if the paths of
all later tokens diverge from the path of its token. -/
theorem walk?_gather_of_vacant (ready : Gatherable (before ++ (t, v) :: after))
    (later : ∀ c ∈ after, c.1.target.Diverges t.target)
    (vacant : (gather before).Vacant t.target) :
    (gather (before ++ (t, v) :: after)).walk? t.target = some v := by
  obtain ⟨writable, hwf⟩ := ready (t, v) (List.mem_append_right _ List.mem_cons_self)
  apply walk?_gather_cons ready later
  exact Json.walk?_merge_of_vacant (writable.wellFormed_piece hwf) vacant writable.walk?_piece

/-- **The gathering holds a value at the path of its token** if the paths of all later tokens
diverge from that path, and the value prevails or the paths of all earlier tokens diverge from it
too. -/
theorem walk?_gather (ready : Gatherable (before ++ (t, v) :: after))
    (later : ∀ c ∈ after, c.1.target.Diverges t.target)
    (earlier : Json.Prevails t.target v ∨ ∀ c ∈ before, c.1.target.Diverges t.target) :
    (gather (before ++ (t, v) :: after)).walk? t.target = some v := by
  obtain ⟨writable, hwf⟩ := ready (t, v) (List.mem_append_right _ List.mem_cons_self)
  rcases earlier with prevails | earlier
  · apply walk?_gather_cons ready later
    exact Json.walk?_merge_of_prevails (writable.wellFormed_piece hwf) prevails
      writable.walk?_piece
  · apply walk?_gather_of_vacant ready later
    exact vacant_gather (fun c hc => ready c (List.mem_append_left _ hc)) writable.target_ne_nil
      fun c hc => (earlier c hc).not_overlaps

/-- **A gathering of values at diverging paths holds all of them.** -/
theorem walk?_gather_of_mem (ready : Gatherable placed)
    (apart : placed.Pairwise fun c c' => c.1.target.Diverges c'.1.target) {c : Token × Json}
    (hc : c ∈ placed) : (gather placed).walk? c.1.target = some c.2 := by
  obtain ⟨before, after, rfl⟩ := List.append_of_mem hc
  obtain ⟨-, apartAfter, apartBefore⟩ := List.pairwise_append.1 apart
  obtain ⟨later, -⟩ := List.pairwise_cons.1 apartAfter
  apply walk?_gather ready
  · intro c' hc'
    exact (later c' hc').symm
  · exact .inr fun c' hc' => apartBefore c' hc' c List.mem_cons_self

/-- **A null at an index leaves what the earlier tokens put there**, if the paths of all later
tokens diverge from its path. -/
theorem walk?_gather_of_hole {w : Json} (ready : Gatherable (before ++ (t, .null) :: after))
    (later : ∀ c ∈ after, c.1.target.Diverges t.target) (index : ¬ t.target.EndsWithKey)
    (holds : (gather before).walk? t.target = some w) :
    (gather (before ++ (t, .null) :: after)).walk? t.target = some w := by
  obtain ⟨writable, hwf⟩ := ready (t, .null) (List.mem_append_right _ List.mem_cons_self)
  apply walk?_gather_cons ready later
  exact Json.walk?_merge_of_hole (writable.wellFormed_piece hwf) writable.target_ne_nil index
    writable.walk?_piece holds

/-- A gathering of values at paths that start with keys is an object. -/
theorem isObj_gather (rooted : ∀ c ∈ placed, c.1.target.Rooted) :
    (gather placed).isObj = true := by
  refine Json.isObj_foldl_merge rfl fun part hpart => ?_
  obtain ⟨c, hc, rfl⟩ := List.mem_map.1 hpart
  exact Token.isObj_piece (rooted c hc)

end Stencil
