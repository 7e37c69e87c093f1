import ConstrainedDecoding.Automaton.Nfa
import ConstrainedDecoding.Reach
import Std.Data.TreeMap

/-!
# Deterministic automata

The subset construction: a deterministic state is a set of states that is closed under silent edges.
States are numbered in the order in which they are found, breadth first; from each state the bytes
come first, in ascending order, then the rules. There is no automaton if it would have too many
states.
-/
namespace ConstrainedDecoding

/-- A state of a deterministic automaton. -/
structure Dfa.State where
  /-- The first and the last byte of each range that is read, and where it leads. -/
  bytes : List (Nat × Nat × StateId)
  /-- The rules that are called, ascending, and where each leads. -/
  calls : List (RuleId × StateId)
  accepts : Bool
  deriving DecidableEq

/-- A deterministic automaton. Its first state is the start. -/
structure Dfa where
  states : Array Dfa.State
  deriving DecidableEq

namespace Nfa

/-- The states that silent edges lead to from some states, and these states. -/
def closure (n : Nfa) (states : List StateId) : List StateId :=
  Reach.reach (fun s => (n.edgesOf s).filterMap Edge.silent?) n.edges.size states

/-! ## Ranges of bytes -/

/-- A list in ascending order without repetitions. -/
def ascending (l : List Nat) : List Nat := (Std.TreeSet.ofList l).toList

/-- A range of bytes on which the same edges can be taken. -/
structure Piece where
  lo : Nat
  hi : Nat
  targets : List StateId

/-- Where the edges lead that read all bytes of a range. -/
def targetsOn (edges : List (UInt8 × UInt8 × StateId)) (lo hi : Nat) : List StateId :=
  ascending (edges.filterMap fun (a, b, t) => if a.toNat ≤ lo ∧ hi ≤ b.toNat then some t else none)

/-- The ranges between neighbouring cut points that some edge reads. -/
def piecesBetween (edges : List (UInt8 × UInt8 × StateId)) : List Nat → List Piece
  | p :: q :: rest =>
    let targets := targetsOn edges p (q - 1)
    if targets.isEmpty then piecesBetween edges (q :: rest)
    else ⟨p, q - 1, targets⟩ :: piecesBetween edges (q :: rest)
  | _ => []

/-- Joins neighbouring ranges with the same targets. -/
def joinPieces : List Piece → List Piece
  | [] => []
  | p :: rest =>
    match joinPieces rest with
    | [] => [p]
    | q :: rest =>
      if p.targets = q.targets ∧ p.hi + 1 = q.lo then ⟨p.lo, q.hi, p.targets⟩ :: rest
      else p :: q :: rest

/-- The cut points of edges: where one of them starts to read, and where it stops. -/
def cutsOf (edges : List (UInt8 × UInt8 × StateId)) : List Nat :=
  ascending (edges.flatMap fun (lo, hi, _) => [lo.toNat, hi.toNat + 1])

/-- Splits what edges read into ranges that do not overlap, ascending. -/
def pieces (edges : List (UInt8 × UInt8 × StateId)) : List Piece :=
  joinPieces (piecesBetween edges (cutsOf edges))

/-! ## Subsets -/

/-- The sets found so far, in order, and the number of each. -/
structure Subsets where
  sets : Array (List StateId)
  numbers : Std.TreeMap (List StateId) StateId

namespace Subsets

def empty : Subsets := ⟨#[], {}⟩

/-- The number of a set, which is a new one if the set has none yet. -/
def number (set : List StateId) : StateT Subsets Option StateId := fun s =>
  match s.numbers[set]? with
  | some i => some (i, s)
  | none =>
    if stateLimit ≤ s.sets.size + 1 then none
    else some (s.sets.size, ⟨s.sets.push set, s.numbers.insert set s.sets.size⟩)

end Subsets

/-- Where the calls of a rule lead. -/
def targetsOf (calls : List (RuleId × StateId)) (r : RuleId) : List StateId :=
  calls.filterMap fun (r', t) => if r' = r then some t else none

/-- The deterministic state of a set. -/
def subsetState (n : Nfa) (set : List StateId) : StateT Subsets Option Dfa.State := do
  let edges := set.flatMap n.edgesOf
  let bytes ← (pieces (edges.filterMap Edge.byte?)).mapM fun p => do
    return (p.lo, p.hi, ← Subsets.number (n.closure p.targets))
  let calls := edges.filterMap Edge.call?
  let calls ← (ascending (calls.map (·.1))).mapM fun r => do
    return (r, ← Subsets.number (n.closure (targetsOf calls r)))
  return ⟨bytes, calls, set.any n.ends.contains⟩

/-- The deterministic states of the sets from number `i` on, and of those found on the way. -/
def subsetStates (n : Nfa) :
    (fuel : Nat) → (i : Nat) → Array Dfa.State → StateT Subsets Option (Array Dfa.State)
  | 0, _, states => return states
  | fuel + 1, i, states => do
    match (← get).sets[i]? with
    | none => return states
    | some set => n.subsetStates fuel (i + 1) (states.push (← n.subsetState set))

/-- The deterministic automaton that reads the same, if it has few enough states. -/
def toDfa? (n : Nfa) : Option Dfa :=
  let build : StateT Subsets Option (Array Dfa.State) := do
    let _ ← Subsets.number (n.closure [n.start])
    n.subsetStates stateLimit 0 #[]
  (build .empty).map fun (states, _) => ⟨states⟩

end Nfa

end ConstrainedDecoding
