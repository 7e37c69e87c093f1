import ConstrainedDecoding.Numeral.Floating

/-!
# JSON values

Objects keep their members in order. A key that is written twice keeps its first place and takes
its last value. A number is a whole number of machine size or a double.
-/
namespace ConstrainedDecoding.Json

/-- A number: a whole number that fits 64 bits, or a double with its sign. -/
inductive Number
  | int (value : Int)
  | double (negative : Bool) (magnitude : Magnitude)
  deriving DecidableEq

/-- A JSON value. -/
inductive Value
  | null
  | bool (b : Bool)
  | number (n : Number)
  | string (s : String)
  | array (items : List Value)
  | object (members : List (String × Value))

namespace Value

instance : Inhabited Value := ⟨.null⟩

/-- A whole number as a value. -/
def nat (n : Nat) : Value := .number (.int n)

/-- The value of a key in a list of members. -/
def lookup (key : String) : List (String × Value) → Option Value
  | [] => none
  | (k, v) :: rest => if k = key then some v else lookup key rest

/-- Sets a key: an old key keeps its place, a new one is added at the end. -/
def insert (key : String) (value : Value) : List (String × Value) → List (String × Value)
  | [] => [(key, value)]
  | (k, v) :: rest => if k = key then (k, value) :: rest else (k, v) :: insert key value rest

/-- The member of an object under a key; other values have no members. -/
def member? (v : Value) (key : String) : Option Value :=
  match v with
  | .object members => lookup key members
  | _ => none

@[simp] theorem lookup_insert_self (key : String) (value : Value)
    (members : List (String × Value)) : lookup key (insert key value members) = some value := by
  induction members with
  | nil => simp [insert, lookup]
  | cons m rest ih =>
    obtain ⟨k, v⟩ := m
    by_cases h : k = key <;> simp [insert, lookup, h, ih]

theorem lookup_insert_of_ne {key other : String} (h : key ≠ other) (value : Value)
    (members : List (String × Value)) :
    lookup other (insert key value members) = lookup other members := by
  induction members with
  | nil => simp [insert, lookup, h]
  | cons m rest ih =>
    obtain ⟨k, v⟩ := m
    by_cases hk : k = key
    · subst hk; simp [insert, lookup, h]
    · simp [insert, lookup, hk, ih]

end Value

end ConstrainedDecoding.Json
