import ConstrainedDecoding.Payload

/-!
# Serialized grammars

A grammar is written with its rules, its arena and its root. Reading a payload checks it as a draft
is checked, so whatever is read is a valid grammar.
-/
namespace ConstrainedDecoding

open Json (Value)
open Payload (word? bool? string? list? optional? required? parts?)

/-! ## Writing -/

def CharClass.members (set : CharClass) : List (String × Value) :=
  [("negated", .bool set.negated),
    ("ranges", .array (set.ranges.map fun (lo, hi) => .array [.nat lo.toNat, .nat hi.toNat]))]

/-- A node as it is written, under its kind. -/
def Expr.toJson : Expr → Value
  | .leaf .empty => .object [("kind", .string "empty_string")]
  | .leaf (.literal bytes) =>
    .object [("kind", .string "byte_string"), ("bytes", .array (bytes.map fun b => .nat b.toNat))]
  | .leaf (.charClass set) => .object (("kind", .string "character_class") :: set.members)
  | .leaf (.charClassStar set) => .object (("kind", .string "character_class_star") :: set.members)
  | .leaf (.reference r) => .object [("kind", .string "rule_ref"), ("rule", .nat r)]
  | .leaf (.repetition r least most) =>
    .object [("kind", .string "repeat"), ("rule", .nat r), ("min", .nat least.toNat),
      ("max", match most with
        | some n => .nat n.toNat
        | none => .null)]
  | .sequence items => .object [("kind", .string "sequence"), ("items", .array (items.map .nat))]
  | .choice items => .object [("kind", .string "choices"), ("items", .array (items.map .nat))]

def Rule.toJson (r : Rule) : Value :=
  .object ([("name", .string r.name), ("body", .nat r.body)] ++
    match r.lookahead with
    | some l => [("lookahead", .object [("expr", .nat l.expr), ("is_exact", .bool l.isExact)])]
    | none => [])

/-- A grammar as a payload. -/
def Grammar.toJson (g : Grammar) : Value :=
  .object [("version", .string payloadVersion),
    ("rules", .array (g.rules.toList.map Rule.toJson)),
    ("exprs", .array (g.exprs.toList.map Expr.toJson)),
    ("root_rule", .nat g.root)]

/-- The serialized form of a grammar. -/
def Grammar.serialize (g : Grammar) : String := g.toJson.text

/-! ## Reading -/

namespace Grammar

def readByte? (v : Value) : Option UInt8 := (Payload.below? 256 v).map UInt8.ofNat

def readWord32? (v : Value) : Option UInt32 := (word? v).map UInt32.ofNat

def readRange? : Value → Option (UInt32 × UInt32)
  | .array [lo, hi] => do return (← readWord32? lo, ← readWord32? hi)
  | _ => none

/-- The names of the parts of a node, by its kind. -/
def partNames? : String → Option (List String)
  | "empty_string" => some []
  | "byte_string" => some ["bytes"]
  | "character_class" | "character_class_star" => some ["negated", "ranges"]
  | "rule_ref" => some ["rule"]
  | "sequence" | "choices" => some ["items"]
  | "repeat" => some ["rule", "min", "max"]
  | _ => none

/-- The kind of a node and its parts. A node may also be written as the list of its kind and all of
its parts. -/
def kindAndParts? : Value → Option (String × List (Option Value))
  | .object members => do
    let kind ← required? string? (Value.lookup "kind" members)
    return (kind, (← partNames? kind).map fun k => Value.lookup k members)
  | .array (.string kind :: items) => do
    let names ← partNames? kind
    if items.length = names.length then some (kind, items.map some) else none
  | _ => none

def readClass? (negated ranges : Option Value) : Option CharClass := do
  return ⟨← required? bool? negated, ← required? (list? readRange?) ranges⟩

/-- Reads a node. -/
def readExpr? (v : Value) : Option Expr := do
  match ← kindAndParts? v with
  | ("empty_string", _) => return .leaf .empty
  | ("byte_string", [bytes]) => return .leaf (.literal (← required? (list? readByte?) bytes))
  | ("character_class", [negated, ranges]) =>
    return .leaf (.charClass (← readClass? negated ranges))
  | ("character_class_star", [negated, ranges]) =>
    return .leaf (.charClassStar (← readClass? negated ranges))
  | ("rule_ref", [rule]) => return .leaf (.reference (← required? word? rule))
  | ("sequence", [items]) => return .sequence (← required? (list? word?) items)
  | ("choices", [items]) => return .choice (← required? (list? word?) items)
  | ("repeat", [rule, least, most]) =>
    return .leaf (.repetition (← required? word? rule) (← required? readWord32? least)
      (← optional? readWord32? most))
  | _ => none

def readLookahead? (v : Value) : Option Lookahead := do
  match ← parts? ["expr", "is_exact"] v with
  | [expr, isExact] => return ⟨← required? word? expr, ← required? bool? isExact⟩
  | _ => none

def readRule? (v : Value) : Option DraftRule := do
  match ← parts? ["name", "body", "lookahead"] v with
  | [name, body, lookahead] =>
    let name ← required? string? name
    let body ← required? word? body
    let lookahead ← optional? readLookahead? lookahead
    return ⟨name, if body = Draft.noBody then none else some body, lookahead⟩
  | _ => none

/-- Reads the parts of a grammar payload: a draft and the number of its root. -/
def readDraft? (v : Value) : Option (Draft × RuleId) := do
  let rules ← required? (list? readRule?) (v.member? "rules")
  let exprs ← required? (list? readExpr?) (v.member? "exprs")
  let root ← required? word? (v.member? "root_rule")
  let names := rules.foldl (fun t r => t.declare r.name) NameTable.empty
  return (⟨rules.toArray, exprs.toArray, names⟩, root)

/-- The grammar that a serialized form describes. -/
def deserialize (text : String) : Except Error Grammar := do
  let v ← Payload.parse text
  match readDraft? v with
  | none => throw (.payload .shape)
  | some (d, root) => (d.finish root).mapError fun defect => .payload (.defect defect)

end Grammar

end ConstrainedDecoding
