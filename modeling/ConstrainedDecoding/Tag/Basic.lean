import ConstrainedDecoding.Grammar.FrontEnds
import ConstrainedDecoding.Payload

/-!
# Tags in free text

A tag description lists triggers and tags. Wherever a trigger appears in free text, one of the tags
that begin with it has to follow in full: its beginning, contents that its grammar describes, and
its end.
-/
namespace ConstrainedDecoding

open Json (Value)

namespace Tag

/-- What the contents of a tag are described by. -/
inductive Content
  | schema (v : Value)
  | ebnf (text : String)
  | pattern (text : String)

/-- The grammar of the contents of a tag. -/
def Content.grammar : Content → Except Error Grammar
  | .schema v => Grammar.ofSchema v .default
  | .ebnf text => Grammar.ofEbnf text "root"
  | .pattern text => Grammar.ofPattern text

end Tag

/-- A tagged region of a text. -/
structure Tag where
  opening : String
  content : Tag.Content
  closing : String

/-- Triggers and tags, and how tags and free text may alternate. -/
structure TagDescription where
  triggers : List String
  tags : List Tag
  atLeastOne : Bool
  /-- The text ends after the first tag. -/
  stopAfterFirst : Bool

namespace Tag

/-! ## Reading descriptions -/

/-- A tag as it is written. -/
structure Written where
  opening : String
  schema : Option Value
  ebnf : Option String
  pattern : Option String
  closing : String

/-- The parts of a record with exactly known names. -/
def knownParts? (names : List String) (v : Value) : Option (List (Option Value)) :=
  match v with
  | .object members =>
    if members.all fun (k, _) => names.contains k then Payload.parts? names v else none
  | v => Payload.parts? names v

open Payload (bool? string? list? optional? required?)

def readTag? (v : Value) : Option Written := do
  match ← knownParts? ["begin", "schema", "ebnf", "regex", "end"] v with
  | [opening, schema, ebnf, pattern, closing] =>
    return ⟨← required? string? opening, ← optional? some schema, ← optional? string? ebnf,
      ← optional? string? pattern, ← required? string? closing⟩
  | _ => none

/-- A flag that is off unless it is given. -/
def readFlag? : Option Value → Option Bool
  | none => some false
  | some v => bool? v

/-- Gives the member `tags` its name if it goes by its other name; both at once are refused. -/
def renameTags? : Value → Option Value
  | .object members =>
    if (Value.lookup "structures" members).isSome then
      if (Value.lookup "tags" members).isSome then none
      else some (.object (members.map fun (k, v) => (if k = "structures" then "tags" else k, v)))
    else some (.object members)
  | v => some v

/-- The parts of a description: triggers, tags and the two flags. -/
def readParts? (v : Value) : Option (List String × List Written × Bool × Bool) := do
  match ← knownParts? ["triggers", "tags", "at_least_one", "stop_after_first"]
      (← renameTags? v) with
  | [triggers, tags, atLeastOne, stopAfterFirst] =>
    return (← required? (list? string?) triggers, ← required? (list? readTag?) tags,
      ← readFlag? atLeastOne, ← readFlag? stopAfterFirst)
  | _ => none

/-- The tag with number `i`, if it can be told when it starts and what it contains. -/
def check (triggers : List String) (i : Nat) (w : Written) : Except Fault Tag :=
  if w.opening.isEmpty then .error (.emptyBegin i)
  else if ¬ triggers.any fun t => t.toList.isPrefixOf w.opening.toList then
    .error (.noMatchingTrigger w.opening i)
  else
    match w.schema, w.ebnf, w.pattern with
    | some v, none, none => .ok ⟨w.opening, .schema v, w.closing⟩
    | none, some text, none => .ok ⟨w.opening, .ebnf text, w.closing⟩
    | none, none, some text => .ok ⟨w.opening, .pattern text, w.closing⟩
    | _, _, _ => .error (.contentCount i)

/-- Checks tags from number `i` on. -/
def checkAll (triggers : List String) : Nat → List Written → Except Fault (List Tag)
  | _, [] => .ok []
  | i, w :: rest => do
    let tag ← check triggers i w
    return tag :: (← checkAll triggers (i + 1) rest)

end Tag

namespace TagDescription

open Tag (Fault)

/-- The description that a JSON value spells. -/
def ofValue (v : Value) : Except Fault TagDescription := do
  match Tag.readParts? v with
  | none => throw .shape
  | some (triggers, written, atLeastOne, stopAfterFirst) =>
    if triggers.isEmpty then throw .noTrigger
    match triggers.findIdx? (·.isEmpty) with
    | some i => throw (.emptyTrigger i)
    | none => return ⟨triggers, ← Tag.checkAll triggers 0 written, atLeastOne, stopAfterFirst⟩

/-- The description that a text spells. -/
def parse (text : String) : Except Error TagDescription :=
  match Json.parse? text with
  | none => .error .notJson
  | some v => (ofValue v).mapError .tag

end TagDescription

end ConstrainedDecoding
