/-!
# Marks

A set of small numbers as an array with a mark at each of its numbers.
-/
namespace ConstrainedDecoding

/-- An array with the given places marked, as far as it has them. -/
def markAll (marks : Array Bool) (places : List Nat) : Array Bool :=
  places.foldl (fun m i => m.setIfInBounds i true) marks

/-- The marks of the given places, among the first `size`. -/
def marksOf (size : Nat) (places : List Nat) : Array Bool :=
  markAll (Array.replicate size false) places

end ConstrainedDecoding
