import Stencil.Options.Config
import Stencil.Proofs.Json.ReadBack

/-!
# Options are read back from a configuration

In a configuration the backslashes of the delimiters are protected twice.  The escaped
form of a mark doubles each of them, and the text of the JSON string doubles each of
those.  Reading undoes both in the opposite order.  The text of a document that has only
known keys, each of them once, denotes what the document denotes (`ofText_render_obj`),
and the strings in it are the escaped forms of the marks.  So all options are read back,
whatever characters the delimiters are made of (`ofText_render`).

The other way round, a configuration need not be written as it was read.  A backslash may
make any character stand for itself, and one at the end of a mark may stand alone, but
only doubled backslashes are written.  So the spelling of a mark stays the same exactly
if its backslashes are doubled (`escape_unescape_iff`).
-/

set_option autoImplicit false

namespace Stencil

/-! ## Spellings of a mark -/

namespace Delimiters

/-- Each backslash in the text stands in front of another one that it protects. -/
inductive Doubled : Text → Prop where
  | nil : Doubled []
  | slash {s : Text} (rest : Doubled s) : Doubled ('\\' :: '\\' :: s)
  | other {c : Char} {s : Text} (ne : c ≠ '\\') (rest : Doubled s) : Doubled (c :: s)

variable {opening closing s : Text} {c : Char} {d : Delimiters}

theorem escape_cons_slash (s : Text) : escape ('\\' :: s) = '\\' :: '\\' :: escape s :=
  rfl

theorem escape_cons_of_ne (h : c ≠ '\\') (s : Text) : escape (c :: s) = c :: escape s := by
  rw [escape, List.flatMap_cons, if_neg h]
  rfl

theorem unescape_cons_of_ne (h : c ≠ '\\') (s : Text) : unescape (c :: s) = c :: unescape s :=
  unescape.eq_3 _ _ fun _ _ hc _ => h hc

theorem doubled_escape (mark : Text) : Doubled (escape mark) := by
  induction mark with
  | nil => exact .nil
  | cons c mark ih =>
      by_cases hc : c = '\\'
      · rw [hc, escape_cons_slash]
        exact .slash ih
      · rw [escape_cons_of_ne hc]
        exact .other hc ih

/-- **The spelling of a mark is the one that is written exactly if its backslashes are doubled.** -/
theorem escape_unescape_iff : escape (unescape s) = s ↔ Doubled s := by
  refine ⟨fun h => h ▸ doubled_escape (unescape s), fun h => ?_⟩
  induction h with
  | nil => rfl
  | slash _ ih => rw [unescape, escape_cons_slash, ih]
  | other ne _ ih => rw [unescape_cons_of_ne ne, escape_cons_of_ne ne, ih]

/-- What is made from two marks are the delimiters that have these marks. -/
theorem ofMarks_eq_ok_iff :
    ofMarks opening closing = .ok d ↔ d.opening = opening ∧ d.closing = closing := by
  refine ⟨fun h => ?_, ?_⟩
  · unfold ofMarks at h
    split at h
    · cases h
    · split at h
      · cases h
      · split at h
        · cases h
        · cases h
          exact ⟨rfl, rfl⟩
  · rintro ⟨rfl, rfl⟩
    exact ofMarks_self d

/-! ## Delimiters in a configuration -/

/-- The entry that denotes the delimiters. -/
def toJson (d : Delimiters) : Json :=
  .arr [.str (String.ofList (escape d.opening)), .str (String.ofList (escape d.closing))]

/-- The text of the delimiters in a configuration. -/
def render (d : Delimiters) : Text :=
  d.toJson.render

/-- The delimiters that a text denotes. -/
def ofText (s : Text) : Except ConfigFault Delimiters :=
  match Json.parse? s with
  | none => .error .notJson
  | some v => Options.readDelimiters v

theorem readsBack_toJson (d : Delimiters) (depth : Nat) : d.toJson.ReadsBack (depth + 1) :=
  ⟨trivial, trivial, trivial⟩

theorem readDelimiters_toJson (d : Delimiters) : Options.readDelimiters d.toJson = .ok d := by
  simp [toJson, Options.readDelimiters, ofEscaped_escape]

/-- Delimiters are read back from their text. -/
theorem ofText_render (d : Delimiters) : ofText d.render = .ok d := by
  rw [ofText, render, Json.parse?_render (d.readsBack_toJson 126)]
  exact d.readDelimiters_toJson

end Delimiters

/-! ## Options -/

namespace Options

/-- The entry for a member with a known key. -/
def kept (f : String × Json) : String × Option Json :=
  (f.1, some f.2)

/-- The text of an entry whose value is kept. -/
def writeKept (entry : String × Option Json) : Text :=
  (entry.2.map fun v => Json.renderMember (entry.1, v)).getD []

/-- An entry with a known key is read from the text of its member. -/
theorem reads_readKnown {f : String × Json} (known : f.1 ∈ keys)
    (h : f.2.ReadsBack (Json.maxDepth - 1)) :
    Json.Reads readKnown (writeKept (kept f)) (kept f) := by
  intro rest ended
  have written : writeKept (kept f) = Json.renderMember f := rfl
  rw [written, readKnown, Json.readMemberBy_renderMember, if_pos known,
    Json.reads_render h rest ended]
  rfl

/-- The entries of an object whose keys are known are read from its text. -/
theorem reads_entries {fs : List (String × Json)} (known : ∀ f ∈ fs, f.1 ∈ keys)
    (h : ∀ f ∈ fs, f.2.ReadsBack (Json.maxDepth - 1)) :
    Json.Reads (Json.readSequence readKnown '\x7d') (Json.obj fs).render.tail (fs.map kept) := by
  cases fs with
  | nil => exact fun rest _ => Json.readSequence_close Json.isClose_brace rest
  | cons f fs =>
      have text : (Json.obj (f :: fs)).render.tail = writeKept (kept f) ++
          ((fs.map kept).flatMap fun entry => ',' :: writeKept entry) ++ ['\x7d'] := by
        rw [Json.tail_render_obj, List.flatMap_map]
        rfl
      rw [text]
      apply Json.reads_readSequence Json.isClose_brace
      rw [← List.map_cons]
      intro entry hentry
      obtain ⟨f', hf', rfl⟩ := List.mem_map.1 hentry
      exact ⟨Json.opens_renderMember f', reads_readKnown (known f' hf') (h f' hf')⟩

/-- **The text of a document with known keys, each of which stands once, denotes what the document
denotes.** -/
theorem ofText_render_obj {fs : List (String × Json)} (nodup : (fs.map Prod.fst).Nodup)
    (known : ∀ f ∈ fs, f.1 ∈ keys) (h : ∀ f ∈ fs, f.2.ReadsBack (Json.maxDepth - 1)) :
    ofText (Json.obj fs).render = ofJson (.obj fs) := by
  have read := reads_entries known h [] nofun
  have skip := Json.skipSpace_render (.obj fs) []
  have values : (fs.map kept).filterMap (fun entry => entry.2.map fun v => (entry.1, v)) = fs := by
    rw [List.filterMap_map]
    exact List.filterMap_some
  rw [List.append_nil] at read skip
  rw [Json.render_obj_eq] at skip ⊢
  have skipNil : Json.skipSpace [] = [] := rfl
  simp only [ofText, skip, read, skipNil, if_true, ofEntries, values, if_pos nodup]

/-- Options are read back from their text. -/
theorem ofText_render (o : Options) : ofText o.render = .ok o := by
  have members : ∀ f ∈ [("delimiters", o.delimiters.toJson), ("allowMissing", .bool o.allowMissing)],
      f.1 ∈ keys ∧ f.2.ReadsBack (Json.maxDepth - 1) := by
    refine List.forall_mem_cons.2 ⟨⟨?_, o.delimiters.readsBack_toJson 125⟩, ?_⟩
    · exact List.mem_cons_self
    · exact List.forall_mem_singleton.2 ⟨List.mem_cons_of_mem _ List.mem_cons_self, trivial⟩
  have nodup : keys.Nodup := by decide
  rw [← ofJson_toJson o]
  exact ofText_render_obj nodup (fun f hf => (members f hf).1) fun f hf => (members f hf).2

/-- **Options survive a configuration.** All options are read back from their text. Delimiters that
are read from any spelling have the marks that it stands for, which are two different ones and not
empty. They are read back from their own text, in which the spelling is another one unless every
backslash was doubled. -/
theorem survive_configuration :
    (∀ o : Options, ofText o.render = .ok o) ∧
      ∀ (opening closing : Text) (d : Delimiters), Delimiters.ofEscaped opening closing = .ok d →
        (d.opening = Delimiters.unescape opening ∧ d.closing = Delimiters.unescape closing) ∧
        (Delimiters.unescape opening ≠ [] ∧ Delimiters.unescape closing ≠ [] ∧
          Delimiters.unescape opening ≠ Delimiters.unescape closing) ∧
        Delimiters.ofText d.render = .ok d ∧
        (Delimiters.escape d.opening = opening ∧ Delimiters.escape d.closing = closing ↔
          Delimiters.Doubled opening ∧ Delimiters.Doubled closing) := by
  refine ⟨ofText_render, fun opening closing d h => ?_⟩
  obtain ⟨hopening, hclosing⟩ := Delimiters.ofMarks_eq_ok_iff.1 h
  refine ⟨⟨hopening, hclosing⟩, ?_, d.ofText_render, ?_⟩
  · rw [← hopening, ← hclosing]
    exact ⟨d.opening_ne_nil, d.closing_ne_nil, d.opening_ne_closing⟩
  · rw [hopening, hclosing, Delimiters.escape_unescape_iff, Delimiters.escape_unescape_iff]

/-- A bracket, and a bracket between backslashes. -/
def bracketed : Delimiters :=
  ⟨['['], ['\\', ']', '\\'], by decide, by decide, by decide⟩

theorem survive_configuration_bracketed :
    Delimiters.ofEscaped "\\[".toList "\\\\]\\".toList = .ok bracketed ∧
      Delimiters.ofText bracketed.render = .ok bracketed ∧
      ofText (render ⟨bracketed, true⟩) = .ok ⟨bracketed, true⟩ ∧
      ¬ (Delimiters.Doubled "\\[".toList ∧ Delimiters.Doubled "\\\\]\\".toList) := by
  -- one backslash stands in front of the bracket, and one alone at the end
  have accepted : Delimiters.ofEscaped "\\[".toList "\\\\]\\".toList = .ok bracketed := rfl
  obtain ⟨options, pairs⟩ := survive_configuration
  obtain ⟨-, -, back, kept⟩ := pairs _ _ _ accepted
  exact ⟨accepted, back, options _, fun doubled => absurd (kept.2 doubled).1 (by decide)⟩

end Options

end Stencil
