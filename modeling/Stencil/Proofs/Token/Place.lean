import Stencil.Proofs.Json.Build
import Stencil.Proofs.Json.Overwrite
import Stencil.Proofs.Path.Reader
import Stencil.Proofs.Token.Recover

/-!
# Where a token puts its value

A value can be put at the path of a token if the path can be read and has no index
that is too large (`Token.Writable`), and putting it there never fails for another
reason (`Token.place_eq_ok_iff`).  A path that was read has a first step, so the
piece that is merged is a container, whatever the value is.  It is an object if the
path starts with a key and an array if it starts with an index.
-/

set_option autoImplicit false

namespace Stencil

namespace Token

variable {t : Token} {v fragment data : Json}

/-! ## Tokens whose paths can be assigned to -/

/-- The path of the token can be read, and it has no index that is too large. -/
structure Writable (t : Token) : Prop where
  readPath : t.readPath = .ok t.target
  bounded : t.target.Bounded

instance (t : Token) : Decidable t.Writable :=
  decidable_of_iff (t.readPath = .ok t.target ∧ t.target.Bounded)
    ⟨fun h => ⟨h.1, h.2⟩, fun h => ⟨h.readPath, h.bounded⟩⟩

theorem ofText_of_readPath {p : Path} (h : t.readPath = .ok p) : Path.ofText t.path = .ok p := by
  unfold readPath at h
  split at h
  · cases h
  · next path hpath =>
    cases h
    exact hpath

theorem target_of_readPath {p : Path} (h : t.readPath = .ok p) : t.target = p := by
  rw [target, ofText_of_readPath h]
  rfl

theorem Writable.target_ne_nil (h : t.Writable) : t.target ≠ [] := fun hnil =>
  Path.ofText_ne_nil t.path (hnil ▸ ofText_of_readPath h.readPath)

/-- **A value can be put at the token's path exactly if the path is writable, and then its piece is
merged.** -/
theorem place_eq_ok_iff :
    t.place v fragment = .ok data ↔ t.Writable ∧ data = fragment.merge (t.piece v) := by
  refine ⟨fun h => ?_, fun ⟨writable, hdata⟩ => ?_⟩
  · obtain ⟨p, hp, h⟩ := bind_eq_ok_iff.1 h
    cases target_of_readPath hp
    dsimp only at h
    split at h
    · cases h
    · next hrefused =>
      cases h
      exact ⟨⟨hp, Json.refused_assign_eq_none_iff.1 hrefused⟩, rfl⟩
  · rw [place_eq writable.readPath writable.bounded, hdata]

/-! ## The piece of a token -/

namespace Writable

theorem wellFormed_piece (h : t.Writable) (hv : v.WellFormed) : (t.piece v).WellFormed :=
  Json.wellFormed_assign h.bounded hv (by simp)

theorem walk?_piece (h : t.Writable) : (t.piece v).walk? t.target = some v :=
  Json.walk?_assign_self h.bounded

/-- The piece avoids every path that diverges from that of the token. -/
theorem avoids_piece (h : t.Writable) {p : Path} (apart : t.target.Diverges p) :
    (t.piece v).Avoids p := by
  rw [piece, Json.assign_obj_nil h.bounded]
  exact Json.avoids_assign h.bounded apart (.inl rfl)

/-- The piece has nothing at a place that lies neither on the path of the token nor behind it. -/
theorem vacant_piece (h : t.Writable) {p : Path} (off : ¬ t.target.Overlaps p) :
    (t.piece v).Vacant p := by
  refine Json.vacant_assign h.bounded off (Json.vacant_obj_nil ?_)
  rintro rfl
  exact off (.inr List.nil_prefix)

end Writable

theorem isObj_piece (rooted : t.target.Rooted) : (t.piece v).isObj = true :=
  Json.isObj_assign rooted

end Token

end Stencil
