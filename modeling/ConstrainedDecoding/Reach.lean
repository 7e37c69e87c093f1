import Std.Data.TreeSet

/-!
# Reachability

The numbers below a bound that can be reached from seeds by steps, in ascending order. They are found
in rounds: each round enters what the round before leads to, and there is nothing new after as many
rounds as there are numbers.
-/
namespace ConstrainedDecoding.Reach

/-- Adds the numbers of a list that are new and below a bound to a set, and collects what the added
ones lead to. -/
def enter (next : Nat → List Nat) (size : Nat) :
    List Nat → Std.TreeSet Nat → List Nat → Std.TreeSet Nat × List Nat
  | [], seen, ahead => (seen, ahead)
  | x :: xs, seen, ahead =>
    if x < size ∧ seen.contains x = false then enter next size xs (seen.insert x) (next x ++ ahead)
    else enter next size xs seen ahead

/-- Adds to a set all that can be reached from pending numbers through numbers outside it. -/
def visit (next : Nat → List Nat) (size : Nat) :
    (fuel : Nat) → Std.TreeSet Nat → List Nat → Std.TreeSet Nat
  | 0, seen, _ => seen
  | _ + 1, seen, [] => seen
  | fuel + 1, seen, x :: pending =>
    let (seen, ahead) := enter next size (x :: pending) seen []
    visit next size fuel seen ahead

/-- The numbers below `size` that can be reached from the seeds, ascending. -/
def reach (next : Nat → List Nat) (size : Nat) (seeds : List Nat) : List Nat :=
  (visit next size (size + 1) ∅ seeds).toList

end ConstrainedDecoding.Reach
