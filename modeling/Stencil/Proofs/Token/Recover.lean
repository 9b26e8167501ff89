import Stencil.Line.Recover
import Stencil.Proofs.Cast
import Stencil.Proofs.Json.Reader
import Stencil.Proofs.Path.Diverge
import Stencil.Proofs.Steps
import Stencil.Proofs.Token.Shape

/-!
# What a token gives back

A token takes a value from the data and becomes a value or a text; recovering goes
the other way and puts a value at the token's path.  The two do not undo each
other: recovering prefers the default to any other value that looks like it, and a
text does not tell what was cast to it.  What holds is that the recovered value
becomes the same again.  For a token in a text this needs no more than a
cast that leaves texts alone (`exists_returns`); for a token that is a whole
string it needs a cast that leaves its own results alone (`exists_recoverValue`).

Null is the one value that the data cannot give to a token, so a token for which
null is recovered must have null as its default.  `Settles` keeps track of that.
-/

set_option autoImplicit false

namespace Stencil

namespace Token

/-! ## Defaults are well-formed -/

theorem wellFormed_of_readDefault? {closing source after rest : Text} {v : Json}
    (h : readDefault? closing source after = some (v, rest)) : v.WellFormed := by
  unfold readDefault? at h
  split at h
  · next w hshort =>
    cases h
    exact Json.wellFormed_of_parse? hshort
  · unfold longDefault? at h
    split at h
    · cases h
    · next w tail hfront =>
      obtain ⟨rest', -, heq⟩ := Option.map_eq_some_iff.1 h
      cases heq
      exact Json.wellFormed_of_readFront? hfront

/-- The default of a token that was read is well-formed. -/
theorem wellFormed_fallback_of_read? {d : Delimiters} {body rest : Text} {token : Token}
    (h : read? d body = .ok (some (token, rest))) :
    ∀ v, token.fallback = some v → v.WellFormed := by
  intro v hv
  cases heads_of_read? h with
  | plain => cases hv
  | marked first declared tagged mark named fallback goesOn =>
      cases hv
      exact wellFormed_of_readDefault? fallback

/-! ## The place of a token -/

/-- The path that the token names, or the empty path if its text is no path. -/
def target (t : Token) : Path :=
  (Path.ofText t.path).toOption.getD []

/-- A value can be put at the token's path in any object. -/
structure Placeable (t : Token) : Prop where
  readPath : t.readPath = .ok t.target
  assignable : t.target.Assignable

instance (t : Token) : Decidable t.Placeable :=
  decidable_of_iff (t.readPath = .ok t.target ∧ t.target.Assignable)
    ⟨fun h => ⟨h.1, h.2⟩, fun h => ⟨h.readPath, h.assignable⟩⟩

/-- The tree that has only the value, at the token's path. -/
def piece (t : Token) (v : Json) : Json :=
  (Json.assign v t.target (.obj [])).tree

theorem place_eq {t : Token} (reads : t.readPath = .ok t.target) (bounded : t.target.Bounded)
    (v fragment : Json) : t.place v fragment = .ok (fragment.merge (t.piece v)) := by
  rw [place, reads, ok_bind]
  dsimp only
  rw [Json.refused_assign_of_bounded bounded]
  rfl

/-! ## Resolving a recovered value -/

/-- The value stands for itself when the data gives it to the token: it is not null, or null is
the token's default. -/
def Settles (t : Token) (v : Json) : Prop :=
  v = .null → t.fallback = some .null

/-- A token finds a value that settles it. -/
theorem source?_of_settles {t : Token} {data v : Json} {p : Path} (settles : t.Settles v)
    (hv : data.get? p = some v) : t.source? data p = some v := by
  rw [source?, hv]
  cases v with
  | null => exact settles rfl
  | bool b => rfl
  | num n => rfl
  | str s => rfl
  | arr xs => rfl
  | obj fs => rfl

theorem resolve_of_source? {t : Token} {data v : Json} (reads : t.readPath = .ok t.target)
    (hv : t.source? data t.target = some v) : t.resolve data = t.applyCast v := by
  rw [resolve, reads, ok_bind, hv]

/-- **A token whose value is in the data becomes that value, cast.** -/
theorem resolve_of_get? {t : Token} {data v : Json} (reads : t.readPath = .ok t.target)
    (settles : t.Settles v) (hv : data.get? t.target = some v) :
    t.resolve data = t.applyCast v :=
  resolve_of_source? reads (source?_of_settles settles hv)

/-- The value that a token finds is in the data, and settles the token, or is its default. -/
theorem settles_of_source? {t : Token} {data v : Json} {p : Path}
    (h : t.source? data p = some v) :
    t.Settles v ∧ (data.get? p = some v ∨ t.fallback = some v) := by
  unfold source? at h
  split at h
  · next w hw =>
    split at h
    · exact ⟨fun hv => hv ▸ h, .inr h⟩
    · next hnull =>
      cases h
      exact ⟨fun hv => absurd (by rw [hv]; rfl) hnull, .inl hw⟩
  · exact ⟨fun hv => hv ▸ h, .inr h⟩

/-- What a token becomes was a value that settles it, before the cast. -/
theorem settles_of_resolve {t : Token} {data r : Json} (h : t.resolve data = .ok r) :
    ∃ v, t.Settles v ∧ t.applyCast v = .ok r ∧
      ((∃ p, data.get? p = some v) ∨ t.fallback = some v) := by
  rw [resolve] at h
  obtain ⟨p, -, h⟩ := bind_eq_ok_iff.1 h
  split at h
  · next v hv =>
    obtain ⟨settles, found⟩ := settles_of_source? hv
    exact ⟨v, settles, h, found.imp_left fun hget => ⟨p, hget⟩⟩
  · cases h

/-! ## A token in a text -/

theorem applyCast_asIs {t : Token} (h : t.cast = .asIs) (v : Json) : t.applyCast v = .ok v := by
  rw [applyCast, h, Cast.apply_asIs]

theorem applyCast_string {t : Token} (h : t.cast = .string) (v : Json) :
    t.applyCast v = .ok (.str (String.ofList v.inline)) := by
  rw [applyCast, h, Cast.apply_string]

/-- A cast that leaves texts alone turns any value into one that leaves the same text. -/
theorem exists_applyCast_inline {t : Token} (h : t.cast = .asIs ∨ t.cast = .string) (v : Json) :
    ∃ w, t.applyCast v = .ok w ∧ w.inline = v.inline := by
  rcases h with h | h
  · exact ⟨v, applyCast_asIs h v, rfl⟩
  · exact ⟨_, applyCast_string h v, by simp [Json.inline]⟩

theorem applyCast_str {t : Token} (h : t.cast = .asIs ∨ t.cast = .string) (s : Text) :
    t.applyCast (.str (String.ofList s)) = .ok (.str (String.ofList s)) := by
  rcases h with h | h
  · exact applyCast_asIs h _
  · rw [applyCast_string h]
    simp [Json.inline]

/-- The value is recovered from the text, and data that holds it makes the token leave the text
again. -/
structure Returns (t : Token) (s : Text) (v : Json) : Prop where
  recovers : t.recoverText s = .ok v
  wellFormed : v.WellFormed
  settles : t.Settles v
  again : ∃ w, t.applyCast v = .ok w ∧ w.inline = s

/-- **From any text a value is recovered that leaves the text again.** -/
theorem exists_returns {t : Token} (cast : t.cast = .asIs ∨ t.cast = .string)
    (wf : ∀ v, t.fallback = some v → v.WellFormed) (s : Text) : ∃ v, t.Returns s v := by
  have taken : t.recoverText s = .ok (.str (String.ofList s)) → ∃ v, t.Returns s v := fun h =>
    ⟨_, h, trivial, nofun, _, applyCast_str cast s, by simp [Json.inline]⟩
  cases hd : t.fallback with
  | none => exact taken (by rw [recoverText, hd]; exact applyCast_str cast s)
  | some d =>
      by_cases hs : d.inline = s
      · obtain ⟨w, hw, hinline⟩ := exists_applyCast_inline cast d
        refine ⟨d, ?_, wf d hd, fun hnull => hnull ▸ hd, w, hw, hinline.trans hs⟩
        simp only [recoverText, hd, if_pos hs]
      · refine taken ?_
        simp only [recoverText, hd, if_neg hs]
        exact applyCast_str cast s

/-- What is recovered from a text leaves that text again. -/
theorem returns_of_recoverText {t : Token} {s : Text} {v : Json}
    (cast : t.cast = .asIs ∨ t.cast = .string) (wf : ∀ d, t.fallback = some d → d.WellFormed)
    (h : t.recoverText s = .ok v) : t.Returns s v := by
  obtain ⟨w, hw⟩ := exists_returns cast wf s
  cases h.symm.trans hw.recovers
  exact hw

/-! ## A token that is the whole string -/

theorem applyCast_eq_ok_iff {t : Token} {v r : Json} :
    t.applyCast v = .ok r ↔ t.cast.apply v = .ok r := by
  unfold applyCast
  cases t.cast.apply v <;> simp

/-- A number is all that a cast to numbers can give. -/
theorem exists_num_of_applyCast {t : Token} (h : t.cast = .number) {v r : Json}
    (hr : t.applyCast v = .ok r) : ∃ n, r = .num n := by
  rw [applyCast_eq_ok_iff, h] at hr
  exact Cast.exists_num_of_apply hr

theorem applyCast_num {t : Token} (h : t.cast = .number) (n : Number) :
    t.applyCast (.num n) = .ok (.num n) := by
  rw [applyCast, h]
  rfl

/-- A value cast again stays as it is. -/
theorem applyCast_again {t : Token}
    (cast : t.cast = .asIs ∨ t.cast = .string ∨ t.cast = .number) {v r : Json}
    (hr : t.applyCast v = .ok r) : t.applyCast r = .ok r := by
  rw [applyCast_eq_ok_iff] at hr ⊢
  refine Cast.apply_again hr fun hobject => ?_
  rw [hobject] at cast
  simp at cast

/-- A default that looks like what the token became becomes it. -/
theorem exists_applyCast_same {t : Token}
    (cast : t.cast = .asIs ∨ t.cast = .string ∨ t.cast = .number) {v r d : Json}
    (hr : t.applyCast v = .ok r) (hsame : d.same r = true) :
    ∃ w, t.applyCast d = .ok w ∧ w.same r = true := by
  rcases cast with h | h | h
  · exact ⟨d, applyCast_asIs h d, hsame⟩
  · rw [applyCast_string h] at hr ⊢
    cases hr
    cases d <;> simp_all [Json.same, Json.inline]
  · obtain ⟨n, rfl⟩ := exists_num_of_applyCast h hr
    cases d <;> try cases hsame
    case num m => exact ⟨.num m, applyCast_num h m, hsame⟩

/-- A cast that declares another type than an object never gives null for anything but null. -/
theorem eq_null_of_applyCast {t : Token}
    (cast : t.cast = .asIs ∨ t.cast = .string ∨ t.cast = .number) {v : Json}
    (hr : t.applyCast v = .ok .null) : v = .null := by
  rcases cast with h | h | h
  · rw [applyCast_asIs h] at hr
    cases hr
    rfl
  · rw [applyCast_string h] at hr
    cases hr
  · obtain ⟨n, hn⟩ := exists_num_of_applyCast h hr
    cases hn

/-- Casts give well-formed trees for well-formed trees. -/
theorem wellFormed_of_applyCast {t : Token} {v r : Json} (hv : v.WellFormed)
    (hr : t.applyCast v = .ok r) : r.WellFormed := by
  cases hcast : t.cast with
  | asIs =>
      rw [applyCast_asIs hcast] at hr
      cases hr
      exact hv
  | string =>
      rw [applyCast_string hcast] at hr
      cases hr
      trivial
  | number =>
      obtain ⟨n, rfl⟩ := exists_num_of_applyCast hcast hr
      trivial
  | object =>
      rw [applyCast_eq_ok_iff, hcast] at hr
      cases v with
      | str s => exact Json.wellFormed_of_parse? (Cast.parse?_of_readObject hr)
      | null => cases hr; exact hv
      | bool b => cases hr; exact hv
      | num n => cases hr; exact hv
      | arr xs => cases hr; exact hv
      | obj fs => cases hr; exact hv

/-- **What is recovered from the value that a token became becomes that value again.** -/
theorem exists_recoverValue {t : Token} {data r : Json}
    (cast : t.cast = .asIs ∨ t.cast = .string ∨ t.cast = .number)
    (wf : ∀ v, t.fallback = some v → v.WellFormed) (hdata : data.WellFormed)
    (h : t.resolve data = .ok r) :
    ∃ v, t.recoverValue r = .ok v ∧ v.WellFormed ∧ t.Settles v ∧
      ∃ w, t.applyCast v = .ok w ∧ w.same r = true := by
  obtain ⟨v, settles, hr, origin⟩ := settles_of_resolve h
  have hv : v.WellFormed := by
    rcases origin with ⟨p, hp⟩ | hfallback
    · exact hdata.get? hp
    · exact wf v hfallback
  have hwf : r.WellFormed := wellFormed_of_applyCast hv hr
  have again : t.applyCast r = .ok r := applyCast_again cast hr
  have taken : ∃ v, (Except.ok r : Except Fault Json) = .ok v ∧ v.WellFormed ∧ t.Settles v ∧
      ∃ w, t.applyCast v = .ok w ∧ w.same r = true := by
    refine ⟨r, rfl, hwf, ?_, r, again, Json.same_refl hwf⟩
    rintro rfl
    exact settles (eq_null_of_applyCast cast hr)
  unfold recoverValue
  rw [again]
  split
  · next d hd =>
    split
    · next hsame =>
      exact ⟨d, rfl, wf d hd, fun hnull => hnull ▸ hd, exists_applyCast_same cast hr hsame⟩
    · exact taken
  · exact taken

/-! ## The values of tokens are well-formed -/

theorem wellFormed_of_source? {t : Token} {data v : Json} {p : Path} (hdata : data.WellFormed)
    (wf : ∀ d, t.fallback = some d → d.WellFormed) (h : t.source? data p = some v) :
    v.WellFormed := by
  rcases (settles_of_source? h).2 with hget | hdefault
  · exact hdata.get? hget
  · exact wf v hdefault

theorem wellFormed_of_resolve {t : Token} {data r : Json} (hdata : data.WellFormed)
    (wf : ∀ d, t.fallback = some d → d.WellFormed) (h : t.resolve data = .ok r) :
    r.WellFormed := by
  obtain ⟨p, -, h⟩ := bind_eq_ok_iff.1 h
  split at h
  · next v hv => exact wellFormed_of_applyCast (wellFormed_of_source? hdata wf hv) h
  · cases h

theorem wellFormed_of_recoverText {t : Token} {s : Text} {v : Json}
    (wf : ∀ d, t.fallback = some d → d.WellFormed) (h : t.recoverText s = .ok v) :
    v.WellFormed := by
  unfold recoverText at h
  split at h
  · next d hd =>
    split at h
    · cases h; exact wf _ hd
    · refine wellFormed_of_applyCast ?_ h
      trivial
  · refine wellFormed_of_applyCast ?_ h
    trivial

theorem wellFormed_of_recoverValue {t : Token} {r v : Json} (hr : r.WellFormed)
    (wf : ∀ d, t.fallback = some d → d.WellFormed) (h : t.recoverValue r = .ok v) :
    v.WellFormed := by
  unfold recoverValue at h
  split at h
  · next d hd =>
    split at h
    · cases h; exact wf _ hd
    · exact wellFormed_of_applyCast hr h
  · exact wellFormed_of_applyCast hr h

end Token

end Stencil
