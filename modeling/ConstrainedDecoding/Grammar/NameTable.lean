import ConstrainedDecoding.Grammar.Basic
import Std.Data.HashMap

/-!
# Names of rules

A name table numbers rules in the order of their declaration and finds the first rule of a name.
`unused` derives a name that no rule has yet.
-/
namespace ConstrainedDecoding

/-- The names declared so far, each with its first rule, and the number of declared rules. -/
structure NameTable where
  ids : Std.HashMap String RuleId
  size : Nat

namespace NameTable

def empty : NameTable := ⟨{}, 0⟩

/-- The first rule of a name. -/
def find? (t : NameTable) (name : String) : Option RuleId := t.ids[name]?

/-- Declares the next rule. -/
def declare (t : NameTable) (name : String) : NameTable :=
  ⟨t.ids.insertIfNew name t.size, t.size + 1⟩

/-- The first of `base_i`, `base_(i+1)`, … that is not declared, among `tries` of them. -/
def numbered (t : NameTable) (base : String) : Nat → Nat → String
  | 0, i => base ++ "_" ++ toString i
  | tries + 1, i =>
    let name := base ++ "_" ++ toString i
    if (t.find? name).isNone then name else numbered t base tries (i + 1)

/-- `base` if it is not declared, else the first of `base_1`, `base_2`, … that is not. As many
tries as there are declared names suffice. -/
def unused (t : NameTable) (base : String) : String :=
  if (t.find? base).isNone then base else t.numbered base t.ids.size 1

end NameTable

end ConstrainedDecoding
