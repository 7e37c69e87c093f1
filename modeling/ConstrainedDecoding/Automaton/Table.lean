import ConstrainedDecoding.Automaton.Dfa

/-!
# Transition tables

A table holds a deterministic automaton with a row of 256 entries for each state, for fast look-up.
-/
namespace ConstrainedDecoding

/-- A deterministic automaton as rows of entries. Its first state is the start. -/
structure Table where
  /-- For each state and byte, where the byte leads. -/
  rows : Array (Array UInt16)
  /-- For each state, the rules that it calls, ascending, and where they lead. -/
  calls : Array (List (RuleId × StateId))
  /-- Whether each state accepts. -/
  ends : Array Bool
  /-- Whether each state reads some byte. -/
  scans : Array Bool
  deriving DecidableEq, Hashable

namespace Table

/-- The entry for a byte that leads nowhere. -/
def noTransition : UInt16 := UInt16.ofNat stateLimit

/-- Sets `count` entries of a row from `start` on. -/
def fillRow (entry : UInt16) (start : Nat) : (count : Nat) → Array UInt16 → Array UInt16
  | 0, row => row
  | count + 1, row => fillRow entry (start + 1) count (row.setIfInBounds start entry)

/-- Sets the entries of a row for a range of bytes that leads to a state. -/
def fillRange (row : Array UInt16) (range : Nat × Nat × StateId) : Array UInt16 :=
  fillRow (UInt16.ofNat range.2.2) range.1 (range.2.1 + 1 - range.1) row

/-- The row of a state that reads ranges of bytes. -/
def rowOf (bytes : List (Nat × Nat × StateId)) : Array UInt16 :=
  bytes.foldl fillRange (Array.replicate 256 noTransition)

/-- The table of a deterministic automaton. -/
def ofDfa (d : Dfa) : Table where
  rows := d.states.map fun s => rowOf s.bytes
  calls := d.states.map (·.calls)
  ends := d.states.map (·.accepts)
  scans := d.states.map fun s => ! s.bytes.isEmpty

/-- The number of states. -/
def size (t : Table) : Nat := t.rows.size

/-- The entry for a state and a byte. -/
def entry (t : Table) (s : StateId) (b : UInt8) : UInt16 :=
  (t.rows.getD s #[]).getD b.toNat noTransition

/-- Where a byte leads from a state. -/
def next? (t : Table) (s : StateId) (b : UInt8) : Option StateId :=
  let e := t.entry s b
  if e = noTransition then none else some e.toNat

/-- The rules that a state calls, and where they lead. -/
def callsOf (t : Table) (s : StateId) : List (RuleId × StateId) := t.calls.getD s []

/-- Whether a state accepts. -/
def accepts (t : Table) (s : StateId) : Bool := t.ends.getD s false

/-- Whether a state reads some byte. -/
def scansAt (t : Table) (s : StateId) : Bool := t.scans.getD s false

/-- Where a byte string leads from a state. -/
def run? (t : Table) (s : StateId) : Bytes → Option StateId
  | [] => some s
  | b :: bs =>
    match t.next? s b with
    | some s => t.run? s bs
    | none => none

/-- The byte that a state reads, if it reads exactly one. -/
def onlyByte? (t : Table) (s : StateId) : Option UInt8 :=
  match (List.range 256).filterMap fun n =>
    let b := UInt8.ofNat n
    if (t.next? s b).isSome then some b else none with
  | [b] => some b
  | _ => none

/-- Whether no state calls a rule. -/
def isCallFree (t : Table) : Bool := t.calls.all (·.isEmpty)

/-- The number of bytes that a table is reckoned to take. -/
def memory (t : Table) : Nat :=
  8 * (t.calls.foldl (fun n cs => n + cs.length) 0) + 4 * (t.size + 1) + 512 * t.size +
    t.size + t.size

end Table

end ConstrainedDecoding
