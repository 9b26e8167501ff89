import Stencil.Proofs.Template.Linear
import Stencil.Template.Paths

/-!
# What filling reads

The paths that a template refers to are those of the tokens of its lines, each text
once (`paths_eq_ok_iff`, `mem_of_paths`).

Filling asks the data for nothing else.  A token asks for the value at its path and
does not tell null from no value (`Json.present?`), and all that follows, the
default, the cast, the text around the token and the fault, depends on the answer
alone.  So data that answer alike at the paths of a template make it the same tree,
or fail with the same fault (`fill_eq_of_paths`).
-/

set_option autoImplicit false

namespace Stencil

/-- The value at the path, unless it is null. -/
def Json.present? (data : Json) (p : Path) : Option Json :=
  (data.get? p).filter fun v => !v.isNull

variable {o : Options} {d : Delimiters} {data data' : Json}

/-! ## One token, one line, one string -/

namespace Token

/-- At the path of the token, if it can be read, both data have the same value, or none or null. -/
def ReadsAlike (t : Token) (data data' : Json) : Prop :=
  ∀ p, Path.ofText t.path = .ok p → data.present? p = data'.present? p

variable {t : Token}

theorem source?_eq (t : Token) (data : Json) (p : Path) :
    t.source? data p = (data.present? p).or t.fallback := by
  unfold source? Json.present?
  cases data.get? p with
  | none => rfl
  | some v => cases hnull : v.isNull <;> simp [Option.filter, hnull]

/-- A token is resolved alike in data that it reads alike. -/
theorem resolve_eq (alike : t.ReadsAlike data data') : t.resolve data = t.resolve data' := by
  unfold resolve
  cases hpath : t.readPath with
  | error fault => rfl
  | ok p => simp only [ok_bind, source?_eq, alike p (ofText_of_readPath hpath)]

end Token

namespace Line

variable {l : Line}

theorem fillRuns_eq {tail : Text} {runs : List (Text × Token)}
    (alike : ∀ run ∈ runs, run.2.ReadsAlike data data') :
    fillRuns data tail runs = fillRuns data' tail runs := by
  induction runs with
  | nil => rfl
  | cons run runs ih =>
      obtain ⟨hrun, hruns⟩ := List.forall_mem_cons.1 alike
      rw [fillRuns, fillRuns, Token.resolve_eq hrun, ih hruns]

theorem fill_eq (alike : ∀ t ∈ l.tokens, t.ReadsAlike data data') : l.fill data = l.fill data' := by
  unfold fill
  cases whole : l.whole? with
  | some t => exact Token.resolve_eq (alike t (mem_tokens_of_whole? whole))
  | none =>
      rw [fillRuns_eq fun run hrun => alike run.2 (List.mem_map_of_mem hrun)]

end Line

theorem fillString_eq {s : String}
    (alike : ∀ l, Line.ofText o.delimiters s.toList = .ok l →
      ∀ t ∈ l.tokens, t.ReadsAlike data data') :
    fillString o data s = fillString o data' s := by
  unfold fillString
  cases hline : Line.ofText o.delimiters s.toList with
  | error fault => rfl
  | ok l => rw [ok_bind, ok_bind, Line.fill_eq (alike l hline)]

namespace Template

variable {t : Template} {ps : List Text}

/-! ## The paths of a template -/

theorem mem_foldl_addNew {texts acc : List Text} {text : Text} :
    text ∈ texts.foldl addNew acc ↔ text ∈ acc ∨ text ∈ texts := by
  induction texts generalizing acc with
  | nil => simp
  | cons first texts ih =>
      rw [List.foldl_cons, ih, List.mem_cons, ← or_assoc]
      refine or_congr_left ?_
      unfold addNew
      split
      · next hmem => exact ⟨.inl, fun h => h.elim id fun heq => heq ▸ hmem⟩
      · rw [List.mem_append, List.mem_singleton]

theorem foldlM_addPaths_eq_ok_iff {strings : List String} {acc : List Text} :
    strings.foldlM (addPaths d) acc = .ok ps ↔
      ∃ lines, strings.mapM (fun s => Line.ofText d s.toList) = .ok lines ∧
        ((lines.flatMap Line.tokens).map Token.path).foldl addNew acc = ps := by
  induction strings generalizing acc with
  | nil =>
      refine ⟨fun h => ⟨[], rfl, by cases h; rfl⟩, fun ⟨lines, hlines, h⟩ => ?_⟩
      cases hlines
      rw [← h]
      rfl
  | cons s strings ih =>
      have step : addPaths d acc s = Line.ofText d s.toList >>= fun line =>
        .ok ((line.tokens.map Token.path).foldl addNew acc) := rfl
      simp only [List.foldlM_cons, List.mapM_cons, step, bind_eq_ok_iff, ih]
      refine ⟨?_, ?_⟩
      · rintro ⟨_, ⟨l, hl, hacc⟩, lines, hlines, h⟩
        cases hacc
        refine ⟨l :: lines, ⟨l, hl, lines, hlines, rfl⟩, ?_⟩
        rw [List.flatMap_cons, List.map_append, List.foldl_append, h]
      · rintro ⟨_, ⟨l, hl, lines, hlines, hcons⟩, h⟩
        cases hcons
        rw [List.flatMap_cons, List.map_append, List.foldl_append] at h
        exact ⟨_, ⟨l, hl, rfl⟩, lines, hlines, h⟩

/-- **The paths of a template are those of the tokens of its lines**, in their order and without
repetitions. -/
theorem paths_eq_ok_iff :
    t.paths d = .ok ps ↔ ∃ lines, t.lines d = .ok lines ∧
      ((lines.flatMap Line.tokens).map Token.path).foldl addNew [] = ps :=
  foldlM_addPaths_eq_ok_iff

theorem mem_of_paths {lines : List Line} (h : t.paths d = .ok ps) (hlines : t.lines d = .ok lines)
    {l : Line} (hl : l ∈ lines) {token : Token} (htoken : token ∈ l.tokens) : token.path ∈ ps := by
  obtain ⟨lines', hlines', rfl⟩ := paths_eq_ok_iff.1 h
  cases hlines.symm.trans hlines'
  refine mem_foldl_addNew.2 (.inr (List.mem_map_of_mem ?_))
  exact List.mem_flatMap.2 ⟨l, hl, htoken⟩

/-! ## Filling with data that agree -/

theorem fillItems_eq {xs : List Json} (h : ∀ x ∈ xs, fill o data x = fill o data' x) :
    fillItems o data xs = fillItems o data' xs := by
  induction xs with
  | nil => rfl
  | cons x xs ih =>
      obtain ⟨hx, hxs⟩ := List.forall_mem_cons.1 h
      rw [fillItems, fillItems, hx, ih hxs]

theorem fillFields_eq {fs : List (String × Json)}
    (h : ∀ f ∈ fs, fill o data f.2 = fill o data' f.2) :
    fillFields o data fs = fillFields o data' fs := by
  induction fs with
  | nil => rfl
  | cons f fs ih =>
      obtain ⟨hf, hfs⟩ := List.forall_mem_cons.1 h
      obtain ⟨k, v⟩ := f
      rw [fillFields, fillFields, hf, ih hfs]

/-- A template is filled alike if each of its strings is. -/
theorem fill_eq_of_strings (h : ∀ s ∈ t.strings, fillString o data s = fillString o data' s) :
    fill o data t = fill o data' t := by
  induction t using Json.memberInduction with
  | null => rfl
  | bool b => rfl
  | num n => rfl
  | str s => exact h s List.mem_cons_self
  | arr xs ih =>
      rw [strings_arr] at h
      rw [fill, fill, fillItems_eq fun x hx => ih x hx fun s hs =>
        h s (List.mem_flatMap.2 ⟨x, hx, hs⟩)]
  | obj fs ih =>
      rw [strings_obj] at h
      rw [fill, fill, fillFields_eq fun f hf => ih f hf fun s hs =>
        h s (List.mem_flatMap.2 ⟨f, hf, hs⟩)]

/-- **Filling reads the data at the paths of the template only.**  Data that have the same values
there, null counting as none, make the template the same tree or fail with the same fault. -/
theorem fill_eq_of_paths (hpaths : t.paths o.delimiters = .ok ps)
    (agree : ∀ text ∈ ps, ∀ p, Path.ofText text = .ok p → data.present? p = data'.present? p) :
    fill o data t = fill o data' t := by
  obtain ⟨lines, hlines, -⟩ := paths_eq_ok_iff.1 hpaths
  refine fill_eq_of_strings fun s hs => fillString_eq fun l hl token htoken => ?_
  obtain ⟨l', hl', hofText⟩ := exists_line_of_mem_strings hlines hs
  cases hl.symm.trans hofText
  exact agree token.path (mem_of_paths hpaths hlines hl' htoken)

/-- A key that may name an index, and a token with a default. -/
def ticket : Template :=
  .arr [.str "Seat <seats.0>", .str "<class||\"second\">"]

/-- The seat is the element of an array, and the class is null. -/
def seatList : Json :=
  .obj [("seats", .arr [.str "12a", .str "12b"]), ("class", .null)]

/-- The seat is the member of an object, and there is no class. -/
def seatTable : Json :=
  .obj [("aisle", .bool true), ("seats", .obj [("0", .str "12a")])]

theorem fill_eq_of_paths_ticket :
    ticket.paths angles.delimiters = .ok ["seats.0".toList, "class".toList] ∧
      (∀ text ∈ ["seats.0".toList, "class".toList], ∀ p, Path.ofText text = .ok p →
        seatList.present? p = seatTable.present? p) ∧
      fill angles seatList ticket = fill angles seatTable ticket := by
  have hpaths : ticket.paths angles.delimiters = .ok ["seats.0".toList, "class".toList] := by
    decide +kernel
  have agree : ∀ text ∈ ["seats.0".toList, "class".toList], ∀ p, Path.ofText text = .ok p →
      seatList.present? p = seatTable.present? p := by
    have seat : Path.ofText "seats.0".toList = .ok [.key "seats", .key "0"] := by decide +kernel
    have grade : Path.ofText "class".toList = .ok [.key "class"] := by decide +kernel
    refine List.forall_mem_cons.2 ⟨fun p hp => ?_, List.forall_mem_singleton.2 fun p hp => ?_⟩
    · cases seat.symm.trans hp
      with_unfolding_all rfl
    · cases grade.symm.trans hp
      with_unfolding_all rfl
  exact ⟨hpaths, agree, fill_eq_of_paths hpaths agree⟩

end Template

end Stencil
