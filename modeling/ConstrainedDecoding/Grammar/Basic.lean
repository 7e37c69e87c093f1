import ConstrainedDecoding.Text.Utf8

/-!
# Grammars

A grammar is a list of named rules over an arena of expressions, with one rule as its root. An
expression is a leaf, or a sequence or choice of expressions that stand earlier in the arena, so
each expression unfolds to a finite tree of leaves.

`Grammar.Valid` says that every number in the grammar leads somewhere; `Expr.toTree` unfolds. The numbers
themselves are not bounded: programs keep them in 32 bits, and a grammar whose numbers have 32 bits is one
that `Grammar.Fits32` holds of. A grammar beyond that has more than 2^32 rules or nodes.
-/
namespace ConstrainedDecoding

/-- The place of a rule in a grammar's list of rules. -/
abbrev RuleId := Nat

/-- The place of an expression in a grammar's arena. -/
abbrev ExprId := Nat

/-- A set of characters: inclusive ranges of code points, or everything outside them. The ranges
may overlap, stand in any order, and lie outside Unicode. -/
structure CharClass where
  negated : Bool
  ranges : List (UInt32 × UInt32)
  deriving DecidableEq

/-- An expression without parts. -/
inductive Leaf
  /-- The empty string. -/
  | empty
  /-- A byte string. -/
  | literal (bytes : Bytes)
  /-- One character of a class. -/
  | charClass (set : CharClass)
  /-- Any number of characters of a class. -/
  | charClassStar (set : CharClass)
  /-- What another rule describes. -/
  | reference (rule : RuleId)
  /-- What another rule describes, `least` times or more, up to `most` times if that is given. -/
  | repetition (rule : RuleId) (least : UInt32) (most : Option UInt32)
  deriving DecidableEq

/-- The rule that a leaf refers to. -/
def Leaf.rule? : Leaf → Option RuleId
  | .reference r | .repetition r _ _ => some r
  | _ => none

/-- Renames the rule that a leaf refers to. -/
def Leaf.mapRule (f : RuleId → RuleId) : Leaf → Leaf
  | .reference r => .reference (f r)
  | .repetition r least most => .repetition (f r) least most
  | leaf => leaf

/-- A node of the arena. -/
inductive Expr
  | leaf (l : Leaf)
  /-- One part after the other. -/
  | sequence (items : List ExprId)
  /-- One of the alternatives. -/
  | choice (items : List ExprId)
  deriving DecidableEq

namespace Expr

/-- The parts of a node. -/
def children : Expr → List ExprId
  | .leaf _ => []
  | .sequence items | .choice items => items

/-- The rule that a node refers to itself, not through its parts. -/
def rule? : Expr → Option RuleId
  | .leaf l => l.rule?
  | _ => none

end Expr

/-- A node with its parts in place. -/
inductive Tree
  | leaf (l : Leaf)
  | sequence (items : List Tree)
  | choice (items : List Tree)

instance : Inhabited Tree := ⟨.leaf .empty⟩

/-- The tree of a node, given the trees of its parts. -/
def Expr.toTree (part : ExprId → Tree) : Expr → Tree
  | .leaf l => .leaf l
  | .sequence items => .sequence (items.map part)
  | .choice items => .choice (items.map part)

/-- What has to follow a rule. It is kept with the rule but restricts nothing. -/
structure Lookahead where
  expr : ExprId
  isExact : Bool
  deriving DecidableEq

/-- A named rule. -/
structure Rule where
  name : String
  body : ExprId
  lookahead : Option Lookahead
  deriving DecidableEq

/-- A context-free grammar. -/
structure Grammar where
  rules : Array Rule
  exprs : Array Expr
  root : RuleId
  deriving DecidableEq

namespace Grammar

/-- The first rule with a name. -/
def findRule? (g : Grammar) (name : String) : Option RuleId :=
  g.rules.findIdx? (·.name == name)

/-- The name of a rule. -/
def ruleName (g : Grammar) (r : RuleId) : String :=
  match g.rules[r]? with
  | some rule => rule.name
  | none => ""

/-- The name of the root rule. -/
def rootName (g : Grammar) : String := g.ruleName g.root

/-- The trees of all nodes of the arena. -/
def trees (g : Grammar) : Array Tree :=
  g.exprs.foldl (fun ts e => ts.push (e.toTree fun i => ts.getD i default)) #[]

/-- The tree of a node. -/
def tree (g : Grammar) (e : ExprId) : Tree := g.trees.getD e default

/-- Every number of the grammar leads somewhere, parts stand before the nodes that use them, and
a bounded repetition has its bounds in order. -/
structure Valid (g : Grammar) : Prop where
  root_lt : g.root < g.rules.size
  body_lt : ∀ r ∈ g.rules, r.body < g.exprs.size
  lookahead_lt : ∀ r ∈ g.rules, ∀ l ∈ r.lookahead, l.expr < g.exprs.size
  rule_lt : ∀ e ∈ g.exprs, ∀ r ∈ e.rule?, r < g.rules.size
  bounds_le : ∀ r least most, .leaf (.repetition r least (some most)) ∈ g.exprs → least ≤ most
  child_lt : ∀ i (h : i < g.exprs.size), ∀ c ∈ g.exprs[i].children, c < i

end Grammar

end ConstrainedDecoding
