import ConstrainedDecoding.Schema.Fault

/-!
# Schemas

A schema says which JSON values are wanted. `Schema.ofValue` reads it from a JSON value; what is
wrong with a part is kept in its place, so that it is reported only if the conversion gets there.
References are followed later.
-/
namespace ConstrainedDecoding

open Json (Value)
open Schema (Cause)

/-- What a schema asks for. -/
inductive Schema
  | any
  | invalid (cause : Cause)
  | reference (target : String)
  /-- One of some values. -/
  | values (vs : List Value)
  /-- One of several schemas, under the given keyword. -/
  | anyOf (key : String) (alternatives : List Schema)
  | allOf (single : Schema)
  /-- One of several types, all at the same place. -/
  | types (alternatives : List Schema)
  | boolean
  | null
  /-- A string that matches a pattern. -/
  | pattern (text : String)
  /-- A string with bounds on its length. -/
  | string (least : Nat) (most : Option Nat)
  | integer (lo hi : Option Int)
  | number (lo hi : Option Int)
  /-- An array that starts with `initial` and goes on with any number of `more`. -/
  | array (initial : List Schema) (more : Option Schema) (least : Nat) (most : Option Nat)
  | emptyObject
  /-- An object with `properties` in order, then required keys without a schema, then others. -/
  | object (properties : List (String × Schema)) (required : List String) (more : Option Schema)
      (mayBeEmpty : Bool)

namespace Schema

/-! ## Members -/

theorem sizeOf_lookup {key : String} {members : List (String × Value)} {v : Value}
    (h : Value.lookup key members = some v) : sizeOf v < sizeOf members := by
  induction members with
  | nil => simp [Value.lookup] at h
  | cons m rest ih =>
    obtain ⟨k, w⟩ := m
    by_cases hk : k = key
    · simp only [Value.lookup, hk, if_true, Option.some.injEq] at h
      subst h
      simp only [List.cons.sizeOf_spec, Prod.mk.sizeOf_spec]
      omega
    · simp only [Value.lookup, hk, if_false] at h
      have := ih h
      simp only [List.cons.sizeOf_spec]
      omega

/-- A whole number that is not negative. -/
def natural? : Value → Option Nat
  | .number (.int n) => if 0 ≤ n then some n.toNat else none
  | _ => none

/-- The natural number under a key; anything else there is overlooked. -/
def naturalUnder (members : List (String × Value)) (key : String) : Option Nat :=
  (Value.lookup key members).bind natural?

/-- Whether one of some keys is present. -/
def hasKey (members : List (String × Value)) (keys : List String) : Bool :=
  keys.any fun k => (Value.lookup k members).isSome

/-! ## Bounds of numbers -/

/-- A number as a double: its sign and magnitude. -/
def double? : Value → Option (Bool × Magnitude)
  | .number (.int n) => (FloatFormat.binary64.round? n.natAbs 1).map fun m => (n < 0, m)
  | .number (.double negative m) => some (negative, m)
  | _ => none

/-- Bounds have to be nearer to zero than this. -/
def boundLimit : Nat := 9000000000000000000

/-- The greatest integer that is not above a double. -/
def floorOf (x : Bool × Magnitude) : Int := if x.1 then -(x.2.ceil : Int) else x.2.floor

/-- The least integer that is not below a double. -/
def ceilOf (x : Bool × Magnitude) : Int := if x.1 then -(x.2.floor : Int) else x.2.ceil

/-- The double under a key. -/
def boundUnder (members : List (String × Value)) (key : String) :
    Except Cause (Option (Bool × Magnitude)) :=
  match Value.lookup key members with
  | none => .ok none
  | some v =>
    match double? v with
    | some x =>
      let (num, den) := x.2.toRatio
      if num < boundLimit * den then .ok (some x) else .error (.bound key)
    | none => .error (.bound key)

/-- The greater of two lower bounds, or the lesser of two upper bounds, as `pick` says. -/
def tighter (pick : Int → Int → Int) : Option Int → Option Int → Option Int
  | some a, some b => some (pick a b)
  | some a, none | none, some a => some a
  | none, none => none

/-- The integers that the bounds of a number leave in between. -/
def wholeBounds (members : List (String × Value)) :
    Except Cause (Option Int × Option Int) := do
  let minimum ← boundUnder members "minimum"
  let above ← boundUnder members "exclusiveMinimum"
  let maximum ← boundUnder members "maximum"
  let below ← boundUnder members "exclusiveMaximum"
  return (tighter max (minimum.map ceilOf) (above.map fun x => floorOf x + 1),
    tighter min (maximum.map floorOf) (below.map fun x => ceilOf x - 1))

/-! ## Reading schemas -/

/-- The schema of a number with bounds. -/
def ofBounds (members : List (String × Value)) (whole : Bool) : Schema :=
  match wholeBounds members with
  | .error cause => .invalid cause
  | .ok (lo, hi) =>
    if whole then
      match lo, hi with
      | some a, some b => if b < a then .invalid .noInteger else .integer lo hi
      | _, _ => .integer lo hi
    else .number lo hi

/-- The patterns of the string formats that are known; others are overlooked. -/
def formatPattern? (format : String) : Option String :=
  let date := "\\d\x7b4\x7d-(0[1-9]|1[0-2])-(0[1-9]|[1-2]\\d|3[01])"
  let time :=
    "([01]\\d|2[0-3]):[0-5]\\d:([0-5]\\d|60)(\\.\\d+)?(Z|[+-]([01]\\d|2[0-3]):[0-5]\\d)"
  let label := "[a-zA-Z0-9]([a-zA-Z0-9-]*[a-zA-Z0-9])?"
  let host := label ++ "(\\." ++ label ++ ")*"
  let octet := "(25[0-5]|2[0-4]\\d|[01]?\\d\\d?)"
  let hex (n : String) := "[0-9a-fA-F]\x7b" ++ n ++ "\x7d"
  if format = "date" then some date
  else if format = "time" then some time
  else if format = "date-time" then some (date ++ "T" ++ time)
  else if format = "email" then
    some ("[a-zA-Z0-9.!#$%&'*+/=?^_`\x7b|\x7d~-]+@" ++ host)
  else if format = "uuid" then
    some (hex "8" ++ "-" ++ hex "4" ++ "-" ++ hex "4" ++ "-" ++ hex "4" ++ "-" ++ hex "12")
  else if format = "ipv4" then some ("(" ++ octet ++ "\\.)\x7b3\x7d" ++ octet)
  else if format = "hostname" then some host
  else none

/-- The schema of a string: by its format, its pattern, or the bounds of its length. -/
def ofString (members : List (String × Value)) : Schema :=
  let format := match Value.lookup "format" members with
    | some (.string f) => formatPattern? f
    | _ => none
  match format, Value.lookup "pattern" members with
  | some p, _ => .pattern p
  | none, some (.string p) => .pattern p
  | none, some _ => .invalid .patternNotString
  | none, none =>
    let least := (naturalUnder members "minLength").getD 0
    let most := naturalUnder members "maxLength"
    if most.any (· < least) then .invalid .lengthOrder else .string least most

/-- Checks the item counts of an array. -/
def checkItems (initial : Nat) (more : Bool) (least : Nat) (most : Option Nat) :
    Except Cause Unit :=
  if most.any (· < least) then .error .itemsOrder
  else if most.any (· < initial) then .error .fewerThanInitial
  else if ¬ more ∧ initial < least then .error .moreThanAllowed
  else .ok ()

/-- The required keys. -/
def requiredKeys (members : List (String × Value)) : Except Cause (List String) :=
  match Value.lookup "required" members with
  | none => .ok []
  | some (.array keys) => keys.mapM fun
    | .string k => .ok k
    | _ => .error .requiredEntry
  | some _ => .error .requiredNotArray

/-- Checks the property counts of an object; `some true` tells that it has to be empty. -/
def checkProperties (members : List (String × Value)) (required : Nat) : Except Cause Bool :=
  match naturalUnder members "maxProperties" with
  | none => .ok false
  | some most =>
    if most < (naturalUnder members "minProperties").getD 0 then .error .propertiesOrder
    else if most < required then .error .requiredTooMany
    else .ok (most = 0)

mutual

/-- The schema that a JSON value spells. -/
def ofValue (strict : Bool) : Value → Schema
  | .bool true => .any
  | .bool false => .invalid .acceptsNothing
  | .object members => ofMembers strict members
  | other => .invalid (.notSchema other)
termination_by v => (sizeOf v, 0)

/-- The schema that the members of an object spell. -/
def ofMembers (strict : Bool) (members : List (String × Value)) : Schema :=
  match Value.lookup "$ref" members with
  | some (.string target) => .reference target
  | some _ => .invalid .referenceNotString
  | none =>
  match Value.lookup "const" members with
  | some v => .values [v]
  | none =>
  match Value.lookup "enum" members with
  | some (.array []) => .invalid .enumEmpty
  | some (.array vs) => .values vs
  | some _ => .invalid .enumNotArray
  | none =>
  match _h : Value.lookup "anyOf" members with
  | some (.array (v :: vs)) => .anyOf "anyOf" (ofValues strict (v :: vs))
  | some _ => .invalid (.noAlternatives "anyOf")
  | none =>
  match _h : Value.lookup "oneOf" members with
  | some (.array (v :: vs)) => .anyOf "oneOf" (ofValues strict (v :: vs))
  | some _ => .invalid (.noAlternatives "oneOf")
  | none =>
  match _h : Value.lookup "allOf" members with
  | some (.array [v]) => .allOf (ofValue strict v)
  | some _ => .invalid .severalAllOf
  | none =>
  match Value.lookup "type" members with
  | some (.string name) => ofType strict members name
  | some (.array []) => .invalid .typeEmpty
  | some (.array names) =>
    .types (names.map fun
      | .string name => ofType strict members name
      | _ => .invalid .typeEntry)
  | some other => .invalid (.typeValue other)
  | none =>
    if hasKey members
        ["properties", "required", "additionalProperties", "maxProperties", "minProperties"] then
      ofObject strict members
    else if hasKey members ["items", "prefixItems", "minItems", "maxItems"] then
      ofArray strict members
    else if hasKey members ["pattern", "minLength", "maxLength", "format"] then ofString members
    else if hasKey members ["minimum", "maximum", "exclusiveMinimum", "exclusiveMaximum"] then
      ofBounds members false
    else .any
termination_by (sizeOf members, 3)
decreasing_by
  all_goals first
    | (apply Prod.Lex.right; omega)
    | (apply Prod.Lex.left
       have := sizeOf_lookup (by assumption)
       simp only [Value.array.sizeOf_spec, List.cons.sizeOf_spec] at this ⊢
       omega)

/-- The schema of a type with the given name. -/
def ofType (strict : Bool) (members : List (String × Value)) (name : String) : Schema :=
  if name = "string" then ofString members
  else if name = "integer" then ofBounds members true
  else if name = "number" then ofBounds members false
  else if name = "boolean" then .boolean
  else if name = "null" then .null
  else if name = "array" then ofArray strict members
  else if name = "object" then ofObject strict members
  else .invalid (.unknownType name)
termination_by (sizeOf members, 2)
decreasing_by all_goals (apply Prod.Lex.right; omega)

/-- The schema of an array. -/
def ofArray (strict : Bool) (members : List (String × Value)) : Schema :=
  let initial : Except Cause (List Schema) :=
    match _h : Value.lookup "prefixItems" members with
    | some (.array items) => .ok (ofValues strict items)
    | some _ => .error .initialItemsNotArray
    | none => .ok []
  let more : Option Schema :=
    match _h : Value.lookup "items" members with
    | some (.bool false) => none
    | some v => some (ofValue strict v)
    | none => if strict then none else some .any
  let least := (naturalUnder members "minItems").getD 0
  let most := naturalUnder members "maxItems"
  match initial with
  | .error cause => .invalid cause
  | .ok initial =>
    match checkItems initial.length more.isSome least most with
    | .error cause => .invalid cause
    | .ok () => .array initial more least most
termination_by (sizeOf members, 1)
decreasing_by
  all_goals
    apply Prod.Lex.left
    have := sizeOf_lookup (by assumption)
    try simp only [Value.array.sizeOf_spec] at this
    omega

/-- The schema of an object. -/
def ofObject (strict : Bool) (members : List (String × Value)) : Schema :=
  let properties : Except Cause (List (String × Schema)) :=
    match _h : Value.lookup "properties" members with
    | some (.object ps) => .ok (ofProperties strict ps)
    | some _ => .error .propertiesNotObject
    | none => .ok []
  let more : Except Cause (Option Schema) :=
    match _h : Value.lookup "additionalProperties" members with
    | some (.bool false) => .ok none
    | some (.bool true) => .ok (some .any)
    | some (.object ms) => .ok (some (ofMembers strict ms))
    | some other => .error (.additionalProperties other)
    | none => .ok (if strict then none else some .any)
  let read : Except Cause Schema := do
    let properties ← properties
    let required ← requiredKeys members
    let more ← more
    if ← checkProperties members required.length then return .emptyObject
    else
      return .object properties required more ((naturalUnder members "minProperties").getD 0 = 0)
  match read with
  | .error cause => .invalid cause
  | .ok schema => schema
termination_by (sizeOf members, 1)
decreasing_by
  all_goals
    apply Prod.Lex.left
    have := sizeOf_lookup (by assumption)
    simp only [Value.object.sizeOf_spec] at this
    omega

/-- The schemas that JSON values spell. -/
def ofValues (strict : Bool) : List Value → List Schema
  | [] => []
  | v :: vs => ofValue strict v :: ofValues strict vs
termination_by vs => (sizeOf vs, 0)
decreasing_by
  all_goals (apply Prod.Lex.left; simp only [List.cons.sizeOf_spec]; omega)

/-- The schemas that the members of an object spell, each under its key. -/
def ofProperties (strict : Bool) : List (String × Value) → List (String × Schema)
  | [] => []
  | (k, v) :: rest => (k, ofValue strict v) :: ofProperties strict rest
termination_by members => (sizeOf members, 0)
decreasing_by
  all_goals
    (apply Prod.Lex.left; simp only [List.cons.sizeOf_spec, Prod.mk.sizeOf_spec]; omega)

end

end Schema

end ConstrainedDecoding
