import ConstrainedDecoding.Json.Value

/-!
# JSON pointers

A pointer is empty or a list of steps, each after a slash; `~1` stands for a slash and `~0` for a
tilde. An array step is an index without leading zeros.
-/
namespace ConstrainedDecoding.Json

/-- Writes `~1` back as a slash and then `~0` back as a tilde. -/
def unescapeStep (s : List Char) : List Char :=
  let rec replace (escape : Char) (by_ : Char) : List Char → List Char
    | '~' :: c :: rest =>
      if c = escape then by_ :: replace escape by_ rest else '~' :: replace escape by_ (c :: rest)
    | c :: rest => c :: replace escape by_ rest
    | [] => []
  replace '0' '~' (replace '1' '/' s)

/-- The index that a pointer step spells. -/
def stepIndex? (s : List Char) : Option Nat :=
  if s.isEmpty ∨ ¬ s.all Char.isDigit ∨ (s.head? = some '0' ∧ s.length ≠ 1) then none
  else some (s.foldl (fun n c => n * 10 + (c.toNat - 48)) 0)

/-- The part of a value that one step leads to. -/
def Value.step? (v : Value) (step : List Char) : Option Value :=
  match v with
  | .object members => lookup (String.ofList step) members
  | .array items => (stepIndex? step).bind (items[·]?)
  | _ => none

/-- Cuts a text at every slash. -/
def cutAtSlashes : List Char → List (List Char)
  | [] => [[]]
  | '/' :: rest => [] :: cutAtSlashes rest
  | c :: rest =>
    match cutAtSlashes rest with
    | [] => [[c]]
    | part :: parts => (c :: part) :: parts

/-- The part of a value that a pointer leads to. -/
def Value.pointer? (v : Value) (pointer : String) : Option Value :=
  match pointer.toList with
  | [] => some v
  | '/' :: rest => (cutAtSlashes rest).foldlM (fun v step => v.step? (unescapeStep step)) v
  | _ => none

end ConstrainedDecoding.Json
