import Stencil.Json.Reader
import Stencil.Proofs.Json.Merge

/-!
# Reading makes well-formed trees

An object may repeat a key in its text, but the tree that is read has each key
once: the members are collected by setting one key after the other.  So every tree
that a reader answers with is well-formed (`wellFormed_of_parse?`,
`wellFormed_of_readFront?`).
-/

set_option autoImplicit false

namespace Stencil.Json

/-- Whatever the reader answers with satisfies the predicate. -/
def Yields {α : Type} (P : α → Prop) (r : Reader α) : Prop :=
  ∀ {s : Text} {x : α} {rest : Text}, r s = some (x, rest) → P x

theorem mem_putKey {k : String} {v : Json} {fs : List (String × Json)} {f : String × Json}
    (h : f ∈ putKey k v fs) : f = (k, v) ∨ f ∈ fs := by
  induction fs with
  | nil => exact .inl (List.mem_singleton.1 h)
  | cons g fs ih =>
      obtain ⟨l, w⟩ := g
      simp only [putKey] at h
      split at h
      · rcases List.mem_cons.1 h with rfl | h
        · exact .inl rfl
        · exact .inr (List.mem_cons_of_mem _ h)
      · rcases List.mem_cons.1 h with rfl | h
        · exact .inr List.mem_cons_self
        · exact (ih h).imp_right (List.mem_cons_of_mem _)

theorem wellFormed_obj_putKey {k : String} {v : Json} {fs : List (String × Json)}
    (hv : v.WellFormed) (h : (obj fs).WellFormed) : (obj (putKey k v fs)).WellFormed := by
  obtain ⟨distinct, all⟩ := (wellFormed_obj fs).1 h
  refine (wellFormed_obj _).2 ⟨nodup_putKey distinct, fun f hf => ?_⟩
  rcases mem_putKey hf with rfl | hf
  · exact hv
  · exact all f hf

theorem wellFormed_ofMembers {members : List (String × Json)}
    (h : ∀ m ∈ members, m.2.WellFormed) : (obj (ofMembers members)).WellFormed := by
  have collected : ∀ fs : List (String × Json), (obj fs).WellFormed →
      (obj (members.foldl (fun fs m => putKey m.1 m.2 fs) fs)).WellFormed := by
    induction members with
    | nil => exact fun _ hfs => hfs
    | cons m members ih =>
        obtain ⟨hm, hrest⟩ := List.forall_mem_cons.1 h
        exact fun fs hfs => ih hrest _ (wellFormed_obj_putKey hm hfs)
  exact collected [] (by simp)

/-! ## The readers -/

variable {α : Type} {P : α → Prop}

theorem yields_readMore {element : Reader α} (he : Yields P element) (close : Char)
    (rounds : Nat) : Yields (fun xs => ∀ x ∈ xs, P x) (readMore element close rounds) := by
  induction rounds with
  | zero => intro s xs rest h; cases h
  | succ rounds ih =>
      intro s xs rest h
      unfold readMore at h
      split at h
      · cases h
      · split at h
        · cases h; simp
        · split at h
          · simp only [Option.bind_eq_bind, Option.bind_eq_some_iff] at h
            obtain ⟨⟨y, s₁⟩, hy, ⟨ys, s₂⟩, hys, heq⟩ := h
            cases heq
            exact List.forall_mem_cons.2 ⟨he hy, ih hys⟩
          · cases h

theorem yields_readSequence {element : Reader α} (he : Yields P element) (close : Char) :
    Yields (fun xs => ∀ x ∈ xs, P x) (readSequence element close) := by
  intro s xs rest h
  unfold readSequence at h
  split at h
  · cases h
  · split at h
    · cases h; simp
    · simp only [Option.bind_eq_bind, Option.bind_eq_some_iff] at h
      obtain ⟨⟨y, s₁⟩, hy, ⟨ys, s₂⟩, hys, heq⟩ := h
      cases heq
      exact List.forall_mem_cons.2 ⟨he hy, yields_readMore he close _ hys⟩

theorem yields_readMember {value : Reader Json} (hv : Yields WellFormed value) :
    Yields (fun m : String × Json => m.2.WellFormed) (readMember value) := by
  intro s m rest h
  unfold readMember readMemberBy at h
  split at h
  · simp only [Option.bind_eq_bind, Option.bind_eq_some_iff] at h
    obtain ⟨⟨k, s₁⟩, -, h⟩ := h
    split at h
    · simp only [Option.bind_eq_some_iff] at h
      obtain ⟨⟨v, s₂⟩, hvalue, heq⟩ := h
      cases heq
      exact hv hvalue
    · cases h
  · cases h

theorem yields_readScalar : Yields WellFormed readScalar := by
  intro s v rest h
  unfold readScalar at h
  split at h
  · obtain ⟨parts, -, heq⟩ := Option.map_eq_some_iff.1 h
    cases heq
    trivial
  · split at h
    · next parts hparts =>
      cases h
      obtain ⟨word, hword, hmatch⟩ := List.exists_of_findSome?_eq_some hparts
      obtain ⟨rest', -, heq⟩ := Option.map_eq_some_iff.1 hmatch
      cases heq
      simp only [words, List.mem_cons, List.not_mem_nil, or_false] at hword
      rcases hword with rfl | rfl | rfl <;> trivial
    · obtain ⟨n, -, heq⟩ := Option.map_eq_some_iff.1 h
      cases heq
      trivial

theorem yields_readValue (depth : Nat) : Yields WellFormed (readValue depth) := by
  induction depth with
  | zero => exact yields_readScalar
  | succ depth ih =>
      intro s v rest h
      unfold readValue at h
      split at h
      · obtain ⟨parts, hparts, heq⟩ := Option.map_eq_some_iff.1 h
        cases heq
        exact (wellFormed_arr _).2 (yields_readSequence ih _ hparts)
      · obtain ⟨parts, hparts, heq⟩ := Option.map_eq_some_iff.1 h
        cases heq
        exact wellFormed_ofMembers (yields_readSequence (yields_readMember ih) _ hparts)
      · exact yields_readScalar h

/-- **The tree that a document denotes is well-formed.** -/
theorem wellFormed_of_parse? {s : Text} {v : Json} (h : parse? s = some v) : v.WellFormed := by
  unfold parse? at h
  split at h
  · next w rest hread =>
    split at h
    · cases h
      exact yields_readValue maxDepth hread
    · cases h
  · cases h

theorem wellFormed_of_readFront? {s rest : Text} {v : Json}
    (h : readFront? s = some (v, rest)) : v.WellFormed := by
  unfold readFront? at h
  dsimp only at h
  split at h
  · next w rest' hread =>
    split at h
    · cases h
      exact yields_readValue maxDepth hread
    · cases h
  · cases h

end Stencil.Json
