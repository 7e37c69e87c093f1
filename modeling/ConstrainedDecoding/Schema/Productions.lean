import ConstrainedDecoding.Grammar.NameTable
import ConstrainedDecoding.Json.Pointer
import ConstrainedDecoding.Regex.IntegerRange
import ConstrainedDecoding.Regex.Parser
import ConstrainedDecoding.Schema.Basic
import ConstrainedDecoding.Schema.Layout

/-!
# From schemas to productions

A schema becomes a source; references, and the rules for strings and for any value, become
productions of their own. Each reference gets one production per level of indentation that matters,
named before its target is converted, so that it may lead back to itself.
-/
namespace ConstrainedDecoding.Schema

open Ebnf (Source Production)
open Json (Value)

/-- What the conversion has produced so far. -/
structure Progress where
  /-- The productions, last first. -/
  productions : List Production
  names : NameTable
  /-- The rules of references, by target and level. -/
  references : List ((String × Nat) × String)
  anyValue : Option String
  anyString : Option String
  stringChar : Option String

/-- Conversions keep their progress and may fail. -/
abbrev Conversion := StateT Progress (Except Fault)

namespace Conversion

/-- The names `root` and `ws` are taken from the start. -/
def start : Progress :=
  ⟨[], (NameTable.empty.declare "root").declare "ws", [], none, none, none⟩

/-- A name for a rule, made of ASCII letters, digits and underscores, and starting with a letter. -/
def sanitize (base : String) : String :=
  let cs := base.toList.map fun c => if c.isAlphanum then c else '_'
  String.ofList (if cs.head?.any Char.isAlpha then cs else 'r' :: '_' :: cs)

/-- A new name derived from a text. -/
def newName (base : String) : Conversion String := do
  let progress ← get
  let name := progress.names.unused (sanitize base)
  set { progress with names := progress.names.declare name }
  return name

/-- Adds a production. -/
def produce (name : String) (alternatives : List Source) : Conversion Unit :=
  modify fun p => { p with productions := ⟨name, alternatives⟩ :: p.productions }

end Conversion

open Conversion

/-! ## Rules for every JSON value -/

/-- A class of the numbered style, from pairs of characters. -/
def classOf (ranges : List (Char × Char)) : Source :=
  .charClass .numbered ⟨false, ranges.map fun (a, b) =>
    (UInt32.ofNat a.toNat, UInt32.ofNat b.toNat)⟩

def digit : Source := classOf [('0', '9')]

/-- A whole number without sign: zero, or digits that start with another one. -/
def naturalSource : Source :=
  .group [.literal "0", .sequence [classOf [('1', '9')], .quantified digit .star]]

/-- A whole number. -/
def integerSource : Source :=
  .sequence [.quantified (.literal "-") .question, naturalSource]

/-- A number with an optional fraction and an optional exponent. -/
def numberSource : Source :=
  .sequence [.quantified (.literal "-") .question, naturalSource,
    .quantified (.group [.sequence [.literal ".", .quantified digit .plus]]) .question,
    .quantified (.group [.sequence [classOf [('e', 'e'), ('E', 'E')],
      .quantified (.charClass .plain ⟨false, [(0x2b, 0x2b), (0x2d, 0x2d)]⟩) .question,
      .quantified digit .plus]]) .question]

/-- The rule for a character of a string, made on first use. -/
def stringChar : Conversion String := do
  match (← get).stringChar with
  | some name => return name
  | none =>
    let name ← newName "json_char"
    modify fun p => { p with stringChar := some name }
    let escapes := ['"', '\\', '/', 'b', 'f', 'n', 'r', 't'].map fun c => (c, c)
    produce name
      [.charClass .numbered ⟨true, [(0x00, 0x1f), (0x22, 0x22), (0x5c, 0x5c)]⟩,
        .sequence [.literal "\\", .group [classOf escapes,
          .sequence [.literal "u",
            .quantified (classOf [('0', '9'), ('a', 'f'), ('A', 'F')]) (.exactly 4)]]]]
    return name

/-- The rule for any string, made on first use. -/
def anyString : Conversion String := do
  match (← get).anyString with
  | some name => return name
  | none =>
    let name ← newName "json_string"
    modify fun p => { p with anyString := some name }
    let char ← stringChar
    produce name [.sequence [.literal "\"", .quantified (.name char) .star, .literal "\""]]
    return name

/-- Items with separators between them, any number of them. -/
def listOf (item separator : List Source) : Source :=
  .quantified (.group [.sequence (item ++
    [.quantified (.group [.sequence (separator ++ item)]) .star])]) .question

/-- The rule for any value, made on first use. -/
def anyValue (layout : Layout) : Conversion String := do
  match (← get).anyValue with
  | some name => return name
  | none =>
    let name ← newName "any_value"
    modify fun p => { p with anyValue := some name }
    let string ← anyString
    let number ← newName "json_number"
    produce number [numberSource]
    let l := layout.flat
    let separator := l.itemSeparator 0
    let pair := [.name string] ++ l.keyValueSeparator ++ [.name name]
    produce name
      [.sequence (l.opening "\x7b" 0 ++ [listOf pair separator] ++ l.closing "\x7d" 0),
        .sequence (l.opening "[" 0 ++ [listOf [.name name] separator] ++ l.closing "]" 0),
        .name string, .name number, .literal "true", .literal "false", .literal "null"]
    return name

/-! ## Containers -/

/-- A container with contents, or possibly without. -/
def container (l : Layout) (opening closing : String) (depth : Nat) (body : List Source)
    (mayBeEmpty : Bool) : Source :=
  let full := .sequence (l.opening opening depth ++ body ++ l.closing closing depth)
  if mayBeEmpty then .group [full, .sequence (l.emptyContainer opening closing)] else full

/-- Items with a separator between each two. -/
def separated (separator : List Source) : List Source → List Source
  | [] => []
  | [item] => [item]
  | item :: rest => item :: separator ++ separated separator rest

/-- An array of `initial` items and then any further items, as many as the bounds allow. -/
def arraySource (l : Layout) (depth : Nat) (initial : List Source) (more : Option Source)
    (least : Nat) (most : Option Nat) : Source :=
  let separator := l.itemSeparator depth
  match more, initial with
  | none, [] => .sequence (l.emptyContainer "[" "]")
  | none, initial => container l "[" "]" depth (separated separator initial) false
  | some item, [] =>
    let rest := Source.repeated (.sequence (separator ++ [item])) (least - 1) (most.map (· - 1))
    container l "[" "]" depth (item :: rest) (least = 0)
  | some item, initial =>
    let rest := Source.repeated (.sequence (separator ++ [item])) least most
    container l "[" "]" depth (separated separator initial ++ rest) false

/-- A member of an object, and whether it is required. -/
structure Member where
  sources : List Source
  required : Bool

/-- Any number of extra members, each after a separator. -/
def extraMembers (separator extra : List Source) : Source :=
  .quantified (.group [.sequence (separator ++ extra)]) .star

/-- The members that may follow after another one. -/
def laterMembers (separator : List Source) (extra : Option (List Source)) :
    List Member → List Source
  | [] => match extra with
    | some e => [extraMembers separator e]
    | none => []
  | m :: rest =>
    (if m.required then separator ++ m.sources
      else [.quantified (.group [.sequence (separator ++ m.sources)]) .question]) ++
      laterMembers separator extra rest

/-- The alternatives for the members of an object that is not empty, one for each member that may
come first. -/
def memberLists (separator : List Source) (extra : Option (List Source)) :
    List Member → List Source
  | [] => match extra with
    | some e => [.sequence (e ++ [extraMembers separator e])]
    | none => []
  | m :: rest =>
    .sequence (m.sources ++ laterMembers separator extra rest) ::
      if m.required then [] else memberLists separator extra rest

/-- An object with the given members and extra members. -/
def objectSource (l : Layout) (depth : Nat) (members : List Member)
    (extra : Option (List Source)) (mayBeEmpty : Bool) : Source :=
  match memberLists (l.itemSeparator depth) extra members with
  | [] => .sequence (l.emptyContainer "\x7b" "\x7d")
  | alternatives =>
    container l "\x7b" "\x7d" depth [.ofAlternatives alternatives]
      (mayBeEmpty && members.all (! ·.required))

/-- The key of a member, as it is written. -/
def keySource (key : String) : Source := .literal (Json.stringText key)

/-! ## Schemas -/

/-- The source of a pattern between quotes. -/
def patternSource (text : String) : Except Fault Source :=
  match Regex.Pattern.parse text with
  | .error fault => .error (.pattern text fault)
  | .ok p => .ok (.sequence [.literal "\"", .group [p.toSource], .literal "\""])

/-- The source of a string with bounds on its length. -/
def stringSource (least : Nat) (most : Option Nat) : Conversion Source := do
  if least = 0 ∧ most = none then return .name (← anyString)
  else
    let char ← stringChar
    match Source.repeated (.name char) least most with
    | [] => return .literal "\"\""
    | chars => return .sequence ([.literal "\""] ++ chars ++ [.literal "\""])

mutual

/-- The source of a schema at a level, found at a path. References are followed by `follow`. -/
def toSource (l : Layout) (follow : String → Nat → Conversion Source) (depth : Nat)
    (path : String) : Schema → Conversion Source
  | .any => return .name (← anyValue l)
  | .invalid cause => throw (.at_ path cause)
  | .reference target => follow target depth
  | .values vs => return .ofAlternatives (vs.map fun v => .literal v.text)
  | .anyOf key alternatives =>
    let inside := path ++ "/" ++ key ++ "/"
    return .ofAlternatives (← toAlternatives l follow depth inside 0 alternatives)
  | .allOf single => single.toSource l follow depth (path ++ "/allOf/0")
  | .types alternatives => return .ofAlternatives (← toTypes l follow depth path alternatives)
  | .boolean => return .group [.literal "true", .literal "false"]
  | .null => return .literal "null"
  | .pattern text => patternSource text
  | .string least most => stringSource least most
  | .integer none none => return integerSource
  | .integer lo hi => return (Regex.Pattern.sequence (Regex.integersBetween lo hi)).toSource
  | .number none none => return numberSource
  | .number lo hi =>
    match Regex.decimalsBetween lo hi with
    | [] => throw (.at_ path .noNumber)
    | parts => return (Regex.Pattern.sequence (Regex.oneOf parts)).toSource
  | .array initial more least most => do
    let n := initial.length
    let items ← toAlternatives l follow (depth + 1) (path ++ "/prefixItems/") 0 initial
    let most := most.map (· - n)
    let item ← if most = some 0 then pure none
      else toOptional l follow (depth + 1) (path ++ "/items") more
    return arraySource l depth items item (least - n) most
  | .emptyObject => return .sequence (l.emptyContainer "\x7b" "\x7d")
  | .object properties required more mayBeEmpty => do
    let declared ← toMembers l follow (depth + 1) (path ++ "/properties/") required properties
    let keyValue := l.keyValueSeparator
    let undeclared ← (required.filter fun k => ! properties.any (·.1 == k)).mapM fun k => do
      return ⟨[keySource k] ++ keyValue ++ [.name (← anyValue l)], true⟩
    let extra ← match more with
      | none => pure none
      | some schema => do
        let key ← anyString
        let value ← schema.toSource l follow (depth + 1) (path ++ "/additionalProperties")
        pure (some ([.name key] ++ keyValue ++ [value]))
    return objectSource l depth (declared ++ undeclared) extra mayBeEmpty

/-- The sources of schemas whose paths differ in their number. -/
def toAlternatives (l : Layout) (follow : String → Nat → Conversion Source) (depth : Nat)
    (path : String) (i : Nat) : List Schema → Conversion (List Source)
  | [] => return []
  | s :: rest => do
    let source ← s.toSource l follow depth (path ++ toString i)
    return source :: (← toAlternatives l follow depth path (i + 1) rest)

/-- The sources of schemas at the same path. -/
def toTypes (l : Layout) (follow : String → Nat → Conversion Source) (depth : Nat)
    (path : String) : List Schema → Conversion (List Source)
  | [] => return []
  | s :: rest => do
    let source ← s.toSource l follow depth path
    return source :: (← toTypes l follow depth path rest)

/-- The source of a schema that may be absent. -/
def toOptional (l : Layout) (follow : String → Nat → Conversion Source) (depth : Nat)
    (path : String) : Option Schema → Conversion (Option Source)
  | none => return none
  | some s => return some (← s.toSource l follow depth path)

/-- The members of declared properties. -/
def toMembers (l : Layout) (follow : String → Nat → Conversion Source) (depth : Nat)
    (path : String) (required : List String) : List (String × Schema) → Conversion (List Member)
  | [] => return []
  | (k, s) :: rest => do
    let value ← s.toSource l follow depth (path ++ k)
    let m : Member := ⟨[keySource k] ++ l.keyValueSeparator ++ [value], required.contains k⟩
    return m :: (← toMembers l follow depth path required rest)

end

/-! ## References -/

/-- The text after the last slash of a pointer. -/
def lastStep (pointer : List Char) : String :=
  String.ofList (pointer.reverse.takeWhile (· ≠ '/')).reverse

/-- Follows a reference into the document: a reference that has a rule is that rule, any other gets
one. At most `fuel` references may be open at once. -/
def follow (document : Value) (strict : Bool) (l : Layout) :
    Nat → String → Nat → Conversion Source
  | 0, _, _ => throw .referencesEndless
  | fuel + 1, target, depth => do
    let key := (target, if (l.newline? 0).isSome then depth else 0)
    match (← get).references.lookup key with
    | some name => return .name name
    | none =>
      match target.toList with
      | '#' :: pointer =>
        match document.pointer? (String.ofList pointer) with
        | none => throw (.referenceUnresolved target)
        | some found =>
          let base := lastStep pointer
          let name ← newName (if base.isEmpty then "root" else base)
          modify fun p => { p with references := (key, name) :: p.references }
          let body ← (ofValue strict found).toSource l (follow document strict l fuel) depth target
          produce name [body]
          return .name name
      | _ => throw (.referenceNotLocal target)

mutual

/-- The number of references in a value. -/
def countReferences : Value → Nat
  | .array items => countInItems items
  | .object members => countInMembers members
  | _ => 0

def countInItems : List Value → Nat
  | [] => 0
  | v :: rest => countReferences v + countInItems rest

def countInMembers : List (String × Value) → Nat
  | [] => 0
  | (k, v) :: rest => (if k = "$ref" then 1 else 0) + countReferences v + countInMembers rest

end

/-- The white space between tokens, as long as the options allow. -/
def whitespaceSource (o : Options) : Source :=
  .quantified (.charClass .printed ⟨false, [(0x20, 0x20), (9, 9), (10, 10), (13, 13)]⟩)
    (match o.maxWhitespace with
      | some most => .between 0 most
      | none => .star)

/-- The productions of a document, with the rule `root` first. -/
def productions (document : Value) (o : Options) : Except Fault (List Production) := do
  let l := Layout.ofOptions o
  let fuel := countReferences document + 1
  let (root, progress) ←
    ((ofValue o.strict document).toSource l (follow document o.strict l fuel) 0 "#").run
      Conversion.start
  let blanks := match l with
    | .anyWhitespace .. => [⟨"ws", [whitespaceSource o]⟩]
    | .fixed .. => []
  return ⟨"root", [root]⟩ :: progress.productions.reverse ++ blanks

/-- The grammar text of a document. -/
def ebnfText (document : Value) (o : Options) : Except Fault String :=
  (productions document o).map fun ps => ps.foldl (fun out p => out ++ p.text) ""

end ConstrainedDecoding.Schema
