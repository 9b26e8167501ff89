import Stencil.Json.Printer
import Stencil.Json.Skip
import Stencil.Options.Basic

/-!
# Options in a configuration

Options are written as a JSON object with the keys `delimiters` and
`allowMissing`.  The delimiters are an array of two strings, in the escaped form
of `Stencil.Delimiters`.  Reading takes the default for a key that is absent and
ignores other keys.  An array is read as the values of the two keys in this order,
and it may be shorter.

There are two ways in.  A document that has been read already denotes options
(`ofJson`), and so does a text (`ofText`).  They differ in what the document does not
show any more.  In a text each of the two keys may stand only once, and the value of any
other key is skipped, so it need not denote anything.

The entries are read in the order in which they stand, and the first one that is
at fault decides.  An entry of a wrong shape is one kind of fault; delimiters of the
right shape that are refused are another.  A text that is no document is a third, whatever
else is wrong with it.
-/

namespace Stencil

set_option autoImplicit false

/-- Why a configuration denotes no options. -/
inductive ConfigFault where
  /-- The text is no JSON document. -/
  | notJson
  /-- The document, or one of its entries, has a wrong shape. -/
  | shape
  /-- The delimiters are refused. -/
  | delimiters (cause : DelimiterFault)
deriving DecidableEq

namespace Options

/-- The delimiters that an entry denotes. -/
def readDelimiters : Json → Except ConfigFault Delimiters
  | .arr [.str opening, .str closing] =>
    match Delimiters.ofEscaped opening.toList closing.toList with
    | .error cause => .error (.delimiters cause)
    | .ok d => .ok d
  | _ => .error .shape

/-- The truth value that an entry denotes. -/
def readFlag : Json → Except ConfigFault Bool
  | .bool b => .ok b
  | _ => .error .shape

/-- The options with one entry changed. -/
def readEntry (o : Options) (key : String) (v : Json) : Except ConfigFault Options :=
  if key = "delimiters" then do
    let d ← readDelimiters v
    return { o with delimiters := d }
  else if key = "allowMissing" then do
    let b ← readFlag v
    return { o with allowMissing := b }
  else .ok o

/-- The keys of the entries that denote something. -/
def keys : List String :=
  ["delimiters", "allowMissing"]

/-- The options that a document denotes. -/
def ofJson : Json → Except ConfigFault Options
  | .obj fs => fs.foldlM (fun o entry => readEntry o entry.1 entry.2) {}
  | .arr xs => do
    let o ← (keys.zip xs).foldlM (fun o entry => readEntry o entry.1 entry.2) {}
    if 2 < xs.length then .error .shape else .ok o
  | _ => .error .shape

/-- Reads an entry; only the value of a known key is kept. -/
def readKnown : Json.Reader (String × Option Json) :=
  Json.readMemberBy fun key s =>
    if key ∈ keys then
      (Json.readValue (Json.maxDepth - 1) s).map fun parts => (some parts.1, parts.2)
    else (Json.skipValue s.length s).map fun parts => (none, parts.2)

/-- The options that the entries of an object denote, each of which may stand once. -/
def ofEntries (entries : List (String × Option Json)) : Except ConfigFault Options :=
  let known := entries.filterMap fun entry => entry.2.map fun v => (entry.1, v)
  if (known.map Prod.fst).Nodup then ofJson (.obj known) else .error .shape

/-- The options that a text denotes. -/
def ofText (s : Text) : Except ConfigFault Options :=
  match Json.skipSpace s with
  | '{' :: s =>
    match Json.readSequence readKnown '}' s with
    | some (entries, rest) =>
      if Json.skipSpace rest = [] then ofEntries entries else .error .notJson
    | none => .error .notJson
  | s =>
    match Json.parse? s with
    | none => .error .notJson
    | some v => ofJson v

/-- The document that denotes the options. -/
def toJson (o : Options) : Json :=
  .obj [("delimiters", .arr
      [.str (String.ofList (Delimiters.escape o.delimiters.opening)),
       .str (String.ofList (Delimiters.escape o.delimiters.closing))]),
    ("allowMissing", .bool o.allowMissing)]

/-- The text of the options in a configuration. -/
def render (o : Options) : Text :=
  o.toJson.render

/-- Options are read back from their document. -/
theorem ofJson_toJson (o : Options) : ofJson o.toJson = .ok o := by
  have h : readDelimiters (.arr
      [.str (String.ofList (Delimiters.escape o.delimiters.opening)),
       .str (String.ofList (Delimiters.escape o.delimiters.closing))]) = .ok o.delimiters := by
    simp [readDelimiters, Delimiters.ofEscaped_escape]
  simp only [toJson, ofJson, List.foldlM_cons, List.foldlM_nil, readEntry, h, readFlag]
  rfl

end Options

end Stencil
