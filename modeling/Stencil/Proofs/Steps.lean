import Mathlib.Data.List.Forall2

/-!
# Steps that can fail

Filling and recovering go through lists of runs, leaves and members and stop at the
first fault.  A run of such steps has an answer exactly when each of them has one,
and `List.Forall₂` says which answer belongs to which step.  What is known of the
faults of every step is known of the fault of the run (`FailsWith.foldlM`).

Which fault it is that stops a run is told by `FirstFault`.  Some faults may be let
pass there: the run goes on behind them.

Two runs agree (`Agree`) if their answers are related or their faults are.  Runs whose
steps agree one by one agree as a whole.
-/

set_option autoImplicit false

namespace Stencil

section Except

variable {ε α β : Type}

theorem ok_bind (a : α) (f : α → Except ε β) : ((.ok a : Except ε α) >>= f) = f a :=
  rfl

theorem bind_eq_ok_iff {x : Except ε α} {f : α → Except ε β} {b : β} :
    (x >>= f) = .ok b ↔ ∃ a, x = .ok a ∧ f a = .ok b := by
  cases x with
  | error fault =>
      refine ⟨fun h => (by cases h), fun ⟨a, ha, _⟩ => (by cases ha)⟩
  | ok a =>
      refine ⟨fun h => ⟨a, rfl, h⟩, fun ⟨a', ha, h⟩ => ?_⟩
      cases ha
      exact h

theorem map_eq_ok_iff {x : Except ε α} {f : α → β} {b : β} :
    x.map f = .ok b ↔ ∃ a, x = .ok a ∧ f a = b := by
  cases x with
  | error fault => exact ⟨nofun, nofun⟩
  | ok a =>
      refine ⟨fun h => ⟨a, rfl, Except.ok.inj h⟩, fun ⟨a', ha, h⟩ => ?_⟩
      cases ha
      exact congrArg _ h

/-- A step that has an answer has the one that is read off it. -/
theorem eq_ok_get {x : Except ε α} (h : x.toOption.isSome = true) :
    x = .ok (x.toOption.get h) := by
  cases x with
  | error fault => cases h
  | ok a => rfl

theorem bind_eq_error_iff {x : Except ε α} {f : α → Except ε β} {fault : ε} :
    (x >>= f) = .error fault ↔ x = .error fault ∨ ∃ a, x = .ok a ∧ f a = .error fault := by
  cases x with
  | error fault' =>
      refine ⟨fun h => (by cases h; exact .inl rfl), ?_⟩
      rintro (h | ⟨a, ha, -⟩)
      · cases h
        rfl
      · cases ha
  | ok a =>
      refine ⟨fun h => .inr ⟨a, rfl, h⟩, ?_⟩
      rintro (h | ⟨a', ha, h⟩)
      · cases h
      · cases ha
        exact h

/-- Two steps, neither of which depends on the answer of the other, fail with the first fault. -/
theorem seq_eq_error_iff {γ : Type} {x : Except ε α} {y : Except ε β} {g : α → β → γ} {fault : ε} :
    (do let a ← x; let b ← y; return g a b) = .error fault ↔
      x = .error fault ∨ (∃ a, x = .ok a) ∧ y = .error fault := by
  cases x with
  | error fault' => simp [bind_eq_error_iff]
  | ok a =>
      cases y with
      | error fault' => simp [bind_eq_error_iff]
      | ok b => exact ⟨nofun, fun h => (by rcases h with h | ⟨-, h⟩ <;> cases h)⟩

theorem mapM_eq_ok_iff {f : α → Except ε β} {xs : List α} {ys : List β} :
    xs.mapM f = .ok ys ↔ List.Forall₂ (fun x y => f x = .ok y) xs ys := by
  induction xs generalizing ys with
  | nil =>
      rw [List.mapM_nil, List.forall₂_nil_left_iff]
      exact ⟨fun h => by cases h; rfl, fun h => by rw [h]; rfl⟩
  | cons x xs ih =>
      rw [List.mapM_cons, bind_eq_ok_iff, List.forall₂_cons_left_iff]
      refine exists_congr fun y => ?_
      rw [bind_eq_ok_iff]
      refine ⟨fun ⟨hy, ys', hys, h⟩ => ?_, fun ⟨ys', hy, hys, h⟩ => ⟨hy, ys', ih.2 hys, ?_⟩⟩
      · cases h
        exact ⟨ys', hy, ih.1 hys, rfl⟩
      · rw [h]
        rfl

/-- Every fault of the step has the property. -/
def FailsWith (p : ε → Prop) (x : Except ε α) : Prop :=
  ∀ fault, x = .error fault → p fault

variable {p : ε → Prop}

theorem failsWith_ok (a : α) : FailsWith p (.ok a : Except ε α) := by
  intro fault h
  cases h

theorem failsWith_error {fault : ε} (h : p fault) : FailsWith p (.error fault : Except ε α) := by
  intro fault' heq
  cases heq
  exact h

theorem FailsWith.bind {x : Except ε α} {f : α → Except ε β} (hx : FailsWith p x)
    (hf : ∀ a, x = .ok a → FailsWith p (f a)) : FailsWith p (x >>= f) := by
  cases x with
  | error fault => exact failsWith_error (hx fault rfl)
  | ok a => exact hf a rfl

theorem FailsWith.map {x : Except ε α} (hx : FailsWith p x) (g : α → β) :
    FailsWith p (x.map g) := by
  cases x with
  | error fault => exact failsWith_error (hx fault rfl)
  | ok a => exact failsWith_ok (g a)

theorem FailsWith.foldlM {f : β → α → Except ε β} {xs : List α}
    (h : ∀ x ∈ xs, ∀ b, FailsWith p (f b x)) (b : β) : FailsWith p (xs.foldlM f b) := by
  induction xs generalizing b with
  | nil => exact failsWith_ok b
  | cons x xs ih =>
      obtain ⟨hx, hxs⟩ := List.forall_mem_cons.1 h
      rw [List.foldlM_cons]
      apply (hx b).bind
      intro b' _
      exact ih hxs b'

theorem failsWith_false_iff {x : Except ε α} :
    FailsWith (fun _ => False) x ↔ ∃ a, x = .ok a := by
  cases x with
  | error fault => exact ⟨fun h => (h fault rfl).elim, fun ⟨a, ha⟩ => nomatch ha⟩
  | ok a => exact ⟨fun _ => ⟨a, rfl⟩, fun _ => failsWith_ok a⟩

/-! ### The first fault of a run -/

/-- The fault is that of the first element for which the step has a fault that is not let pass. -/
def FirstFault (pass : ε → Prop) (f : α → Except ε β) (xs : List α) (fault : ε) : Prop :=
  ∃ before x after, xs = before ++ x :: after ∧ (∀ y ∈ before, FailsWith pass (f y)) ∧
    f x = .error fault ∧ ¬ pass fault

variable {pass : ε → Prop} {f : α → Except ε β} {xs ys : List α} {fault : ε}

theorem not_firstFault_nil : ¬ FirstFault pass f [] fault := by
  rintro ⟨before, x, after, hnil, -⟩
  cases before <;> cases hnil

theorem firstFault_cons_iff {x : α} :
    FirstFault pass f (x :: xs) fault ↔
      (f x = .error fault ∧ ¬ pass fault) ∨ FailsWith pass (f x) ∧ FirstFault pass f xs fault := by
  refine ⟨?_, ?_⟩
  · rintro ⟨before, y, after, heq, hbefore, hy⟩
    cases before with
    | nil =>
        cases heq
        exact .inl hy
    | cons z before =>
        cases heq
        obtain ⟨hx, hbefore⟩ := List.forall_mem_cons.1 hbefore
        exact .inr ⟨hx, before, y, after, rfl, hbefore, hy⟩
  · rintro (hx | ⟨hx, before, y, after, rfl, hbefore, hy⟩)
    · exact ⟨[], x, xs, rfl, List.forall_mem_nil _, hx⟩
    · exact ⟨x :: before, y, after, rfl, List.forall_mem_cons.2 ⟨hx, hbefore⟩, hy⟩

theorem firstFault_append_iff :
    FirstFault pass f (xs ++ ys) fault ↔
      FirstFault pass f xs fault ∨
        (∀ x ∈ xs, FailsWith pass (f x)) ∧ FirstFault pass f ys fault := by
  induction xs with
  | nil => simp [not_firstFault_nil]
  | cons x xs ih =>
      rw [List.cons_append, firstFault_cons_iff, firstFault_cons_iff, ih, List.forall_mem_cons]
      tauto

/-- All faults are let pass exactly if none of them is the first that is not. -/
theorem forall_failsWith_iff :
    (∀ x ∈ xs, FailsWith pass (f x)) ↔ ∀ fault, ¬ FirstFault pass f xs fault := by
  induction xs with
  | nil => simp [not_firstFault_nil]
  | cons x xs ih =>
      simp only [List.forall_mem_cons, ih, firstFault_cons_iff, not_or, not_and, forall_and]
      refine ⟨fun ⟨hx, hxs⟩ => ⟨fun fault h => not_not.2 (hx fault h), fun fault _ => hxs fault⟩,
        ?_⟩
      rintro ⟨hx, hxs⟩
      have passes : FailsWith pass (f x) := fun fault h => not_not.1 (hx fault h)
      exact ⟨passes, fun fault => hxs fault passes⟩

/-- Runs whose steps have the same faults that are not let pass have the same first fault. -/
theorem firstFault_congr {γ : Type} {pass' : ε → Prop} {g : α → Except ε γ}
    (h : ∀ x fault, f x = .error fault ∧ ¬ pass fault ↔ g x = .error fault ∧ ¬ pass' fault) :
    FirstFault pass f xs fault ↔ FirstFault pass' g xs fault := by
  have passes : ∀ x, FailsWith pass (f x) ↔ FailsWith pass' (g x) := by
    intro x
    have hx := forall_congr' fun fault => not_congr (h x fault)
    simpa only [FailsWith, not_and, not_not] using hx
  unfold FirstFault
  simp only [h, passes]

/-! ### Two runs that agree -/

/-- Both steps have answers, and these are related, or both have faults, and these are related. -/
inductive Agree (p : α → β → Prop) (q : ε → ε → Prop) : Except ε α → Except ε β → Prop where
  | ok {a : α} {b : β} (h : p a b) : Agree p q (.ok a) (.ok b)
  | error {fault fault' : ε} (h : q fault fault') : Agree p q (.error fault) (.error fault')

namespace Agree

variable {γ δ : Type} {p : α → β → Prop} {q : ε → ε → Prop} {x : Except ε α} {y : Except ε β}

theorem refl {p : α → α → Prop} {x : Except ε α} (hp : ∀ a, x = .ok a → p a a)
    (hq : ∀ fault, q fault fault) : Agree p q x x := by
  cases x with
  | ok a => exact .ok (hp a rfl)
  | error fault => exact .error (hq fault)

/-- What follows for related answers of the two steps. -/
theorem imp {p' : α → β → Prop} (h : Agree p q x y)
    (hp : ∀ a b, x = .ok a → y = .ok b → p a b → p' a b) : Agree p' q x y := by
  cases h with
  | ok h => exact .ok (hp _ _ rfl rfl h)
  | error h => exact .error h

theorem and {p' : α → β → Prop} (h : Agree p q x y) (h' : Agree p' q x y) :
    Agree (fun a b => p a b ∧ p' a b) q x y := by
  cases h with
  | ok h => cases h' with | ok h' => exact .ok ⟨h, h'⟩
  | error h => exact .error h

theorem bind {r : γ → δ → Prop} {f : α → Except ε γ} {g : β → Except ε δ} (h : Agree p q x y)
    (hfg : ∀ a b, x = .ok a → y = .ok b → p a b → Agree r q (f a) (g b)) :
    Agree r q (x >>= f) (y >>= g) := by
  cases h with
  | ok h => exact hfg _ _ rfl rfl h
  | error h => exact .error h

theorem symm (h : Agree p q x y) :
    Agree (fun b a => p a b) (fun fault fault' => q fault' fault) y x := by
  cases h with
  | ok h => exact .ok h
  | error h => exact .error h

theorem exists_ok {a : α} (h : Agree p q x y) (hx : x = .ok a) : ∃ b, y = .ok b ∧ p a b := by
  subst hx
  cases h with
  | ok h => exact ⟨_, rfl, h⟩

theorem exists_error {fault : ε} (h : Agree p q x y) (hx : x = .error fault) :
    ∃ fault', y = .error fault' ∧ q fault fault' := by
  subst hx
  cases h with
  | error h => exact ⟨_, rfl, h⟩

end Agree

/-- Runs whose steps agree have first faults that are related. -/
theorem FirstFault.of_agree {γ : Type} {p : α → β → γ → Prop} {q : ε → ε → Prop}
    {g : α → Except ε γ} (h : ∀ x ∈ xs, Agree (p x) q (f x) (g x))
    (first : FirstFault (fun _ => False) f xs fault) :
    ∃ fault', FirstFault (fun _ => False) g xs fault' ∧ q fault fault' := by
  obtain ⟨before, x, after, rfl, hbefore, hx, hpass⟩ := first
  obtain ⟨hbeforeAgree, hxAgree⟩ := List.forall_mem_append.1 h
  obtain ⟨fault', hx', hq⟩ := (hxAgree x List.mem_cons_self).exists_error hx
  refine ⟨fault', ⟨before, x, after, rfl, fun y hy => ?_, hx', id⟩, hq⟩
  obtain ⟨b, hb⟩ := failsWith_false_iff.1 (hbefore y hy)
  obtain ⟨c, hc, -⟩ := (hbeforeAgree y hy).exists_ok hb
  exact failsWith_false_iff.2 ⟨c, hc⟩

/-- Runs that fail with the first faults of steps that agree have answers both, or fail both. -/
theorem Agree.of_firstFault {γ δ ζ : Type} {p : α → β → γ → Prop} {q : ε → ε → Prop}
    {g : α → Except ε γ} {x : Except ε δ} {y : Except ε ζ}
    (hx : ∀ fault, x = .error fault ↔ FirstFault (fun _ => False) f xs fault)
    (hy : ∀ fault, y = .error fault ↔ FirstFault (fun _ => False) g xs fault)
    (h : ∀ a ∈ xs, Agree (p a) q (f a) (g a)) : Agree (fun _ _ => True) q x y := by
  cases x with
  | error fault =>
      obtain ⟨fault', first, related⟩ := ((hx fault).1 rfl).of_agree h
      rw [(hy fault').2 first]
      exact .error related
  | ok d =>
      cases y with
      | ok e => exact .ok trivial
      | error fault' =>
          obtain ⟨fault, first, -⟩ := ((hy fault').1 rfl).of_agree fun a ha => (h a ha).symm
          cases (hx fault).2 first

end Except

section Forall₂

variable {α β : Type} {r : α → β → Prop} {xs : List α} {ys : List β}

theorem exists_forall₂ (h : ∀ x ∈ xs, ∃ y, r x y) : ∃ ys, List.Forall₂ r xs ys := by
  induction xs with
  | nil => exact ⟨[], .nil⟩
  | cons x xs ih =>
      obtain ⟨y, hy⟩ := h x List.mem_cons_self
      obtain ⟨ys, hys⟩ := ih fun x' hx' => h x' (List.mem_cons_of_mem x hx')
      exact ⟨y :: ys, .cons hy hys⟩

theorem exists_left_of_forall₂ (h : List.Forall₂ r xs ys) {y : β} (hy : y ∈ ys) :
    ∃ x ∈ xs, r x y := by
  induction h with
  | nil => cases hy
  | cons hxy _ ih =>
      rcases List.mem_cons.1 hy with rfl | hy
      · exact ⟨_, List.mem_cons_self, hxy⟩
      · obtain ⟨x, hx, hr⟩ := ih hy
        exact ⟨x, List.mem_cons_of_mem _ hx, hr⟩

theorem exists_right_of_forall₂ (h : List.Forall₂ r xs ys) {x : α} (hx : x ∈ xs) :
    ∃ y ∈ ys, r x y :=
  exists_left_of_forall₂ h.flip hx

/-- Pairs of a relation that factors element by element make lists that factor. -/
theorem exists_forall₂_comp {γ : Type} {p : α → γ → Prop} {q : γ → β → Prop}
    (h : List.Forall₂ r xs ys) (between : ∀ x ∈ xs, ∀ y, r x y → ∃ z, p x z ∧ q z y) :
    ∃ zs, List.Forall₂ p xs zs ∧ List.Forall₂ q zs ys := by
  induction h with
  | nil => exact ⟨[], .nil, .nil⟩
  | @cons x y xs ys hxy _ ih =>
      obtain ⟨hx, hxs⟩ := List.forall_mem_cons.1 between
      obtain ⟨z, hp, hq⟩ := hx y hxy
      obtain ⟨zs, hps, hqs⟩ := ih hxs
      exact ⟨z :: zs, .cons hp hps, .cons hq hqs⟩

/-- What holds between the elements of two lists can be carried along to a third list. -/
theorem exists_forall₂_along {γ δ : Type} {r' : α → γ → Prop} {p : β → δ → Prop} {q : γ → δ → Prop}
    {zs : List γ} (h : List.Forall₂ r xs ys) (h' : List.Forall₂ r' xs zs)
    (along : ∀ x ∈ xs, ∀ y ∈ ys, ∀ z, r x y → r' x z → ∃ w, p y w ∧ q z w) :
    ∃ ws, List.Forall₂ p ys ws ∧ List.Forall₂ q zs ws := by
  induction h generalizing zs with
  | nil =>
      cases h'
      exact ⟨[], .nil, .nil⟩
  | @cons x y xs ys hxy _ ih =>
      obtain ⟨z, zs, hz, hzs, rfl⟩ := List.forall₂_cons_left_iff.1 h'
      obtain ⟨w, hp, hq⟩ := along x List.mem_cons_self y List.mem_cons_self z hxy hz
      obtain ⟨ws, hps, hqs⟩ := ih hzs fun x' hx' y' hy' =>
        along x' (List.mem_cons_of_mem x hx') y' (List.mem_cons_of_mem y hy')
      exact ⟨w :: ws, .cons hp hps, .cons hq hqs⟩

end Forall₂

end Stencil
