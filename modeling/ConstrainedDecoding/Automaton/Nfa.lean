import ConstrainedDecoding.Grammar.Basic

/-!
# Nondeterministic automata

Edges read a byte of a range, stand for what a rule describes, or are silent. Automata grow by
state actions.
-/
namespace ConstrainedDecoding

/-- A state of an automaton. -/
abbrev StateId := Nat

/-- State and rule numbers stay below this number, which marks a missing transition in tables. -/
def stateLimit : Nat := 65535

namespace Nfa

/-- An edge, with the state that it leads to. -/
inductive Edge
  | byte (lo hi : UInt8) (target : StateId)
  | silent (target : StateId)
  | call (rule : RuleId) (target : StateId)
  deriving DecidableEq

/-- The target of a silent edge. -/
def Edge.silent? : Edge → Option StateId
  | silent t => some t
  | _ => none

/-- The range and the target of an edge that reads a byte. -/
def Edge.byte? : Edge → Option (UInt8 × UInt8 × StateId)
  | byte lo hi t => some (lo, hi, t)
  | _ => none

/-- The rule and the target of an edge that stands for a rule. -/
def Edge.call? : Edge → Option (RuleId × StateId)
  | call r t => some (r, t)
  | _ => none

end Nfa

/-- A nondeterministic automaton. -/
structure Nfa where
  /-- The edges that leave each state. -/
  edges : Array (List Nfa.Edge)
  start : StateId
  /-- The accepting states. -/
  ends : List StateId

namespace Nfa

/-- The edges that leave a state. -/
def edgesOf (n : Nfa) (s : StateId) : List Edge := n.edges.getD s []

/-- Two states, the start and the end, without an edge. -/
def empty : Nfa := ⟨#[[], []], 0, [1]⟩

/-- Adds a state. -/
def addState : StateM Nfa StateId := fun n =>
  (n.edges.size, { n with edges := n.edges.push [] })

/-- Adds an edge that leaves `s`. -/
def addEdge (s : StateId) (e : Edge) : StateM Nfa Unit := fun n =>
  ((), { n with edges := n.edges.modify s (e :: ·) })

end Nfa

end ConstrainedDecoding
