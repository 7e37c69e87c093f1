import ConstrainedDecoding.Grammar.Basic

/-!
# Expansions

The automaton of a rule contains the automata of the rules it refers to where that is possible: a
rule is *closed* if it has no lookahead, refers to closed rules alone, and repeats them at most 32
times. The expansion of a tree has the expansions of closed rules in place of references to them,
and leaves the other references as calls. `Grammar.closedRules` finds the closed rules in rounds,
each rule with its expansion; since an expansion is a finite tree, no rule is put into itself.
-/
namespace ConstrainedDecoding

/-- A tree in which references to closed rules are replaced. -/
inductive Expansion
  | empty
  | literal (bytes : Bytes)
  | charClass (set : CharClass)
  | charClassStar (set : CharClass)
  /-- What another rule describes. -/
  | call (rule : RuleId)
  | sequence (items : List Expansion)
  | choice (items : List Expansion)
  | repetition (body : Expansion) (least : Nat) (most : Option Nat)

instance : Inhabited Expansion := ⟨.empty⟩

namespace Expansion

/-- The largest number of copies of a closed rule that stand in another rule. -/
def maxCopies : Nat := 32

/-- Whether a repetition has few enough copies to stand in the rule. -/
def isShort (least : UInt32) (most : Option UInt32) : Bool :=
  (max (most.getD least) least).toNat ≤ maxCopies

mutual

/-- Whether a tree refers to closed rules alone and repeats them few times. -/
def isClosed (closed : Array (Option Expansion)) : Tree → Bool
  | .leaf (.reference r) => (closed.getD r none).isSome
  | .leaf (.repetition r least most) => (closed.getD r none).isSome && isShort least most
  | .leaf _ => true
  | .sequence items | .choice items => areClosed closed items

def areClosed (closed : Array (Option Expansion)) : List Tree → Bool
  | [] => true
  | t :: ts => isClosed closed t && areClosed closed ts

end

/-- The expansion of a leaf. -/
def ofLeaf (closed : Array (Option Expansion)) : Leaf → Expansion
  | .empty => empty
  | .literal bytes => literal bytes
  | .charClass set => charClass set
  | .charClassStar set => charClassStar set
  | .reference r => (closed.getD r none).getD (call r)
  | .repetition r least most =>
    let body :=
      if isShort least most then (closed.getD r none).getD (call r) else call r
    repetition body least.toNat (most.map UInt32.toNat)

mutual

/-- The expansion of a tree. -/
def ofTree (closed : Array (Option Expansion)) : Tree → Expansion
  | .leaf l => ofLeaf closed l
  | .sequence items => sequence (ofTrees closed items)
  | .choice items => choice (ofTrees closed items)

def ofTrees (closed : Array (Option Expansion)) : List Tree → List Expansion
  | [] => []
  | t :: ts => ofTree closed t :: ofTrees closed ts

end

/-- Closes one more rule, if all that it refers to is closed. -/
def closeRule (rules : Array (Rule × Tree)) (closed : Array (Option Expansion)) (r : RuleId) :
    Array (Option Expansion) :=
  match rules[r]? with
  | none => closed
  | some (rule, body) =>
    if rule.lookahead.isNone && (closed.getD r none).isNone && isClosed closed body then
      closed.setIfInBounds r (some (ofTree closed body))
    else closed

/-- The number of closed rules. -/
def count (closed : Array (Option Expansion)) : Nat := closed.countP Option.isSome

/-- Closes rules round by round until a round closes none, at most `rounds` times. -/
def closeRounds (rules : Array (Rule × Tree)) :
    (rounds : Nat) → Array (Option Expansion) → Array (Option Expansion)
  | 0, closed => closed
  | rounds + 1, closed =>
    let closed' := (List.range rules.size).foldl (closeRule rules) closed
    if count closed' = count closed then closed else closeRounds rules rounds closed'

end Expansion

namespace Grammar

/-- The rules with the trees of their bodies. -/
def ruleTrees (g : Grammar) : Array (Rule × Tree) :=
  let trees := g.trees
  g.rules.map fun rule => (rule, trees.getD rule.body default)

/-- The expansions of the closed rules. -/
def closedRules (g : Grammar) : Array (Option Expansion) :=
  Expansion.closeRounds g.ruleTrees g.rules.size (Array.replicate g.rules.size none)

/-- The expansion of each rule's body. -/
def expansions (g : Grammar) : Array Expansion :=
  let closed := g.closedRules
  g.ruleTrees.map fun (_, body) => Expansion.ofTree closed body

end Grammar

end ConstrainedDecoding
