import ConstrainedDecoding.Error
import ConstrainedDecoding.Json.Reader

/-!
# Serialized payloads

A payload is a JSON object that carries the version of its format. The readers here answer `none`
for a part of the wrong kind. A record may be written as an object or as the list of its parts in
order; members of an object that are not known are overlooked.
-/
namespace ConstrainedDecoding.Payload

open Json (Value)

/-- Reads a payload of the current version. -/
def parse (text : String) : Except Error Value :=
  match Json.parse? text with
  | none => .error .notJson
  | some v =>
    match v.member? "version" with
    | none => .error (.payload .noVersion)
    | some found =>
      match found with
      | .string s => if s = payloadVersion then .ok v else .error (.version found)
      | _ => .error (.version found)

/-- A natural number below a bound. -/
def below? (bound : Nat) : Value → Option Nat
  | .number (.int n) => if 0 ≤ n ∧ n < bound then some n.toNat else none
  | _ => none

/-- A number of 32 bits. -/
def word? : Value → Option Nat := below? 0x100000000

/-- A number of 64 bits. -/
def size? : Value → Option Nat := below? 0x10000000000000000

def bool? : Value → Option Bool
  | .bool b => some b
  | _ => none

def string? : Value → Option String
  | .string s => some s
  | _ => none

/-- A list of parts of one kind. -/
def list? {α : Type} (part : Value → Option α) : Value → Option (List α)
  | .array items => items.mapM part
  | _ => none

/-- A part that may be absent or null. -/
def optional? {α : Type} (part : Value → Option α) : Option Value → Option (Option α)
  | none | some .null => some none
  | some v => (part v).map some

/-- A part that has to be there. -/
def required? {α : Type} (part : Value → Option α) (v : Option Value) : Option α := v.bind part

/-- The parts of a record with the given names; a list must not be longer than that. -/
def parts? (names : List String) : Value → Option (List (Option Value))
  | .object members => some (names.map fun k => Value.lookup k members)
  | .array items =>
    if items.length ≤ names.length then
      some (items.map some ++ List.replicate (names.length - items.length) none)
    else none
  | _ => none

end ConstrainedDecoding.Payload
