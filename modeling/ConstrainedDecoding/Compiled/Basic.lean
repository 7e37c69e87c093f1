import ConstrainedDecoding.Automaton.OfGrammar
import ConstrainedDecoding.Mask.Token
import ConstrainedDecoding.Vocabulary.Basic

/-!
# Compiled grammars

A compiled grammar holds the tables of the rules of a lowered grammar and, for each state of each
rule, a token mask. States that read no byte share an empty mask, and rules with equal tables share
their masks.
-/
namespace ConstrainedDecoding

/-- The masks of a compiled grammar: a pool of masks, and for each rule and state a place in it. -/
structure MaskPool where
  masks : Array TokenMask
  places : Array (Array Nat)

/-- A grammar compiled against a vocabulary. -/
structure Compiled where
  grammar : Grammar
  /-- The reduced canonical form, from which the tables are made. -/
  lowered : Grammar
  vocabulary : Vocabulary
  /-- The table of each rule of the lowered grammar. -/
  tables : Array Table
  pool : MaskPool

namespace MaskPool

/-- Masks under construction, with the empty mask's place and the places of each table so far. -/
structure Growing where
  masks : Array TokenMask
  empty : Option Nat
  known : Std.HashMap Table (Array Nat)

/-- Adds a mask to the pool. -/
def addMask (m : TokenMask) : StateM Growing Nat := fun p =>
  (p.masks.size, { p with masks := p.masks.push m })

/-- The place of the mask that states without byte transitions share. -/
def emptyPlace : StateM Growing Nat := fun p =>
  match p.empty with
  | some i => (i, p)
  | none =>
    (p.masks.size, { p with masks := p.masks.push .empty, empty := some p.masks.size })

/-- The place of the mask of a state of a table. -/
def statePlace (v : Vocabulary) (t : Table) (s : StateId) : StateM Growing Nat :=
  if t.scansAt s then addMask (.ofState t v s) else emptyPlace

/-- Notes the places of the masks of a table. -/
def note (t : Table) (places : Array Nat) : StateM Growing (Array Nat) := fun p =>
  (places, { p with known := p.known.insert t places })

/-- The places of the masks of a table, shared with an equal table before it. -/
def tablePlaces (v : Vocabulary) (t : Table) : StateM Growing (Array Nat) := do
  match (← get).known[t]? with
  | some places => return places
  | none => note t (← (List.range t.size).mapM (statePlace v t)).toArray

/-- The masks of tables. -/
def ofTables (v : Vocabulary) (tables : Array Table) : MaskPool :=
  let (places, p) := (tables.toList.mapM (tablePlaces v)) ⟨#[], none, {}⟩
  ⟨p.masks, places.toArray⟩

/-- The places of all states, rule by rule. -/
def flatPlaces (p : MaskPool) : List Nat := p.places.toList.flatMap Array.toList

/-- Numbers given in the order of first use. -/
structure Numbering where
  /-- What has a number, in order. -/
  order : Array Nat
  numbers : Std.HashMap Nat Nat

/-- The number of a place, which is the next one if the place has none yet. -/
def Numbering.number (i : Nat) : StateM Numbering Nat := fun n =>
  match n.numbers[i]? with
  | some k => (k, n)
  | none => (n.order.size, ⟨n.order.push i, n.numbers.insert i n.order.size⟩)

/-- For each state, rule by rule, the number of its mask in the order of first use, and the masks
that are used, in that order. -/
def inOrderOfUse (p : MaskPool) : List Nat × List TokenMask :=
  let (numbers, n) := (p.flatPlaces.mapM Numbering.number) ⟨#[], {}⟩
  (numbers, n.order.toList.map fun i => p.masks.getD i .empty)

end MaskPool

namespace Compiled

/-- Compiles a grammar against a vocabulary. -/
def compile (g : Grammar) (v : Vocabulary) : Except GrammarFault Compiled := do
  let lowered ← g.lowered
  let tables ← lowered.tables
  return ⟨g, lowered, v, tables, .ofTables v tables⟩

/-- The table of a rule. -/
def table (c : Compiled) (r : RuleId) : Table := c.tables.getD r ⟨#[], #[], #[], #[]⟩

/-- The mask of a state of a rule. -/
def mask (c : Compiled) (r : RuleId) (s : StateId) : TokenMask :=
  c.pool.masks.getD ((c.pool.places.getD r #[]).getD s c.pool.masks.size) .empty

/-- The number of the root rule. -/
def root (c : Compiled) : RuleId := c.lowered.root

/-- Whether the table of the root rule calls no rule, so that it is all that matching needs. -/
def isSingle (c : Compiled) : Bool := (c.table c.root).isCallFree

/-- The number of states of all tables. -/
def stateCount (c : Compiled) : Nat := c.tables.foldl (fun n t => n + t.size) 0

/-- The number of bytes that a compiled grammar is reckoned to take; shared masks count once. -/
def memory (c : Compiled) : Nat :=
  let masks := (c.pool.inOrderOfUse.2.map TokenMask.memory).foldl (· + ·) 0
  let tables := c.tables.foldl (fun n t => n + t.memory) 0
  masks + tables + 32 * (c.grammar.exprs.size + c.lowered.exprs.size) +
    48 * (c.grammar.rules.size + c.lowered.rules.size) + c.stateCount + 4 * c.tables.size +
    8 * c.stateCount

/-- A short description. -/
def summary (c : Compiled) : String :=
  let rules := c.tables.size
  let states := c.stateCount
  let single := c.isSingle
  s!"CompiledGrammar \x7b rules: {rules}, states: {states}, is_single_dfa: {single}, .. \x7d"

end Compiled

end ConstrainedDecoding
