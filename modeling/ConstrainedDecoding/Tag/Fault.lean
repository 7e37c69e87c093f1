import ConstrainedDecoding.Text.Quoted

/-!
# Faults of tag descriptions

Tags and triggers are numbered from zero in the order of their description.
-/
namespace ConstrainedDecoding.Tag

/-- What is wrong with a description of triggers and tags. -/
inductive Fault
  /-- A part is missing, is not known or is of the wrong kind. -/
  | shape
  | noTrigger
  | emptyTrigger (i : Nat)
  | emptyBegin (i : Nat)
  | noMatchingTrigger (begin_ : String) (i : Nat)
  | contentCount (i : Nat)
  deriving DecidableEq

/-- The wording of a fault, where it has one. -/
def Fault.message : Fault → Option String
  | .shape => none
  | .noTrigger => some "at least one trigger is required"
  | .emptyTrigger i => some s!"trigger {i} is empty"
  | .emptyBegin i => some s!"tag {i} has an empty begin"
  | .noMatchingTrigger b i =>
    some ("begin " ++ Text.quoted b ++ s!" of tag {i} does not start with any trigger")
  | .contentCount i => some s!"tag {i} needs exactly one of \"schema\", \"ebnf\" or \"regex\""

end ConstrainedDecoding.Tag
