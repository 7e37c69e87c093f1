import ConstrainedDecoding.Automaton.Expansion
import ConstrainedDecoding.Automaton.Nfa
import ConstrainedDecoding.Automaton.Utf8Paths

/-!
# Automata of expansions

An expansion is wired between two states, `start` and `stop`. Nothing is wired into `start` or out
of `stop`, so expansions that share the two states do not mix.
-/
namespace ConstrainedDecoding

open Nfa (addState addEdge)

mutual

/-- Wires paths of UTF-8 bytes between two states. -/
def Utf8Paths.wire (start stop : StateId) : Utf8Paths → StateM Nfa Unit
  | .last lo hi => addEdge start (.byte lo hi stop)
  | .branch branches => Utf8Paths.wireBranches start stop branches

def Utf8Paths.wireBranches (start stop : StateId) :
    List ((UInt8 × UInt8) × Utf8Paths) → StateM Nfa Unit
  | [] => return ()
  | ((lo, hi), paths) :: rest => do
    let middle ← addState
    addEdge start (.byte lo hi middle)
    paths.wire middle stop
    Utf8Paths.wireBranches start stop rest

end

/-- Wires one character of a class between two states. -/
def CharClass.wire (set : CharClass) (start stop : StateId) : StateM Nfa Unit :=
  set.utf8Paths.forM fun paths => paths.wire start stop

namespace Expansion

/-- Wires a byte string between two states. -/
def wireLiteral (start stop : StateId) : Bytes → StateM Nfa Unit
  | [] => addEdge start (.silent stop)
  | [b] => addEdge start (.byte b b stop)
  | b :: bs => do
    let middle ← addState
    addEdge start (.byte b b middle)
    wireLiteral middle stop bs

/-- Wires any number of copies between two states, through a state of their own. -/
def wireStar (copy : StateId → StateId → StateM Nfa Unit) (start stop : StateId) :
    StateM Nfa Unit := do
  let hub ← addState
  let back ← addState
  addEdge start (.silent hub)
  addEdge hub (.silent stop)
  copy hub back
  addEdge back (.silent hub)

/-- Wires `n` copies one after the other, and answers the state after the last. -/
def wireCopies (copy : StateId → StateId → StateM Nfa Unit) :
    (n : Nat) → StateId → StateM Nfa StateId
  | 0, start => return start
  | n + 1, start => do
    let next ← addState
    copy start next
    wireCopies copy n next

/-- Wires up to `n` copies between two states. -/
def wireOptional (copy : StateId → StateId → StateM Nfa Unit) (stop : StateId) :
    (n : Nat) → StateId → StateM Nfa Unit
  | 0, start => addEdge start (.silent stop)
  | n + 1, start => do
    let next ← addState
    addEdge start (.silent stop)
    copy start next
    wireOptional copy stop n next

/-- Wires `least` copies or more between two states, up to `most` of them if that is given. -/
def wireRepetition (copy : StateId → StateId → StateM Nfa Unit) (least : Nat) (most : Option Nat)
    (start stop : StateId) : StateM Nfa Unit := do
  let last ← wireCopies copy least start
  match most with
  | none => wireStar copy last stop
  | some most => wireOptional copy stop (most - least) last

mutual

/-- Wires an expansion between two states. -/
def wire : Expansion → (start stop : StateId) → StateM Nfa Unit
  | .empty, start, stop => addEdge start (.silent stop)
  | .literal bytes, start, stop => wireLiteral start stop bytes
  | .charClass set, start, stop => set.wire start stop
  | .charClassStar set, start, stop => wireStar set.wire start stop
  | .call r, start, stop => addEdge start (.call r stop)
  | .sequence items, start, stop => wireSequence items start stop
  | .choice items, start, stop => wireChoice items start stop
  | .repetition body least most, start, stop =>
    wireRepetition (fun a b => wire body a b) least most start stop

/-- Wires expansions one after the other between two states. -/
def wireSequence : List Expansion → (start stop : StateId) → StateM Nfa Unit
  | [], start, stop => addEdge start (.silent stop)
  | [x], start, stop => wire x start stop
  | x :: xs, start, stop => do
    let middle ← addState
    wire x start middle
    wireSequence xs middle stop

/-- Wires expansions side by side between two states. -/
def wireChoice : List Expansion → (start stop : StateId) → StateM Nfa Unit
  | [], _, _ => return ()
  | x :: xs, start, stop => do
    wire x start stop
    wireChoice xs start stop

end

/-- The automaton of an expansion. -/
def nfa (x : Expansion) : Nfa := (x.wire 0 1 .empty).2

end Expansion

end ConstrainedDecoding
