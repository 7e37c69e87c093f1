/-!
# Settings and the ceiling on nested rules

A setting is left alone or set; a set empty list differs from no list.
-/
namespace ConstrainedDecoding

/-- A value that is left to its default or set. -/
inductive Setting (α : Type)
  | unset
  | set (value : α)
  deriving DecidableEq

namespace Setting

variable {α : Type}

def ofOption : Option α → Setting α
  | none => unset
  | some a => set a

def toOption : Setting α → Option α
  | unset => none
  | set a => some a

def isSet : Setting α → Bool
  | unset => false
  | set _ => true

/-- The value, or a default. -/
def getD (s : Setting α) (default : α) : α :=
  match s with
  | unset => default
  | set a => a

@[simp] theorem toOption_ofOption (o : Option α) : (ofOption o).toOption = o := by
  cases o <;> rfl

@[simp] theorem ofOption_toOption (s : Setting α) : ofOption s.toOption = s := by
  cases s <;> rfl

end Setting

/-- How deep rules may be nested where nothing else is said. -/
def defaultMaxDepth : Nat := 10000

/-- The ceiling that a request for `n` gives: at least one. -/
def maxDepthOf (n : Nat) : Nat := max n 1

end ConstrainedDecoding
