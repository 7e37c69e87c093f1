import ConstrainedDecoding.Grammar.Draft
import ConstrainedDecoding.Marks
import ConstrainedDecoding.Reach

/-!
# Reduced grammars

A grammar is reduced in three steps: rules that the root does not reach are dropped, a rule that is
used once is put in place of its use, and what becomes unreachable by that is dropped too. Each step
copies the grammar, and leaves it as it is when there is nothing to do.
-/
namespace ConstrainedDecoding

mutual

/-- The rules that a tree refers to, once for each use. -/
def Tree.uses : Tree → List RuleId
  | .leaf l => l.rule?.toList
  | .sequence items | .choice items => Tree.usesOfAll items

def Tree.usesOfAll : List Tree → List RuleId
  | [] => []
  | t :: ts => t.uses ++ Tree.usesOfAll ts

end

mutual

/-- The rules that a tree repeats. -/
def Tree.repeats : Tree → List RuleId
  | .leaf (.repetition r _ _) => [r]
  | .leaf _ => []
  | .sequence items | .choice items => Tree.repeatsOfAll items

def Tree.repeatsOfAll : List Tree → List RuleId
  | [] => []
  | t :: ts => t.repeats ++ Tree.repeatsOfAll ts

end

namespace Reduced

/-! ## Copies -/

mutual

/-- Adds a copy of a tree, in which `reference` and `rename` say what becomes of references and of
repeated rules. -/
def copyTree (reference : RuleId → StateM Draft ExprId) (rename : RuleId → RuleId) :
    Tree → StateM Draft ExprId
  | .leaf (.reference r) => reference r
  | .leaf l => Draft.addLeaf (l.mapRule rename)
  | .sequence items => do Draft.add (.sequence (← copyTrees reference rename items))
  | .choice items => do Draft.add (.choice (← copyTrees reference rename items))

def copyTrees (reference : RuleId → StateM Draft ExprId) (rename : RuleId → RuleId) :
    List Tree → StateM Draft (List ExprId)
  | [] => return []
  | t :: ts => do
    let e ← copyTree reference rename t
    return e :: (← copyTrees reference rename ts)

end

/-- How a grammar is copied: which rules are put in place of their uses, the trees of all rule
bodies, and the new numbers of the rules. -/
structure Plan where
  inlined : Array Bool
  bodies : Array Tree
  renamed : Array (Option RuleId)

namespace Plan

/-- The new number of a rule. -/
def rename (p : Plan) (r : RuleId) : RuleId := (p.renamed.getD r none).getD r

/-- Adds a copy of a tree. A rule is put in place of its use unless that use is inside a copy of the
rule; `depth` is how deep rules may be put into each other. -/
def copy (p : Plan) : (depth : Nat) → (inside : List RuleId) → Tree → StateM Draft ExprId
  | 0, _ => copyTree (fun r => Draft.addLeaf (.reference (p.rename r))) p.rename
  | depth + 1, inside => copyTree (fun r =>
      if p.inlined.getD r false && ! inside.contains r then
        p.copy depth (r :: inside) (p.bodies.getD r default)
      else Draft.addLeaf (.reference (p.rename r))) p.rename

/-- Fills in the copy of a rule, if it has one; `tree` finds its lookahead. -/
def fill (p : Plan) (tree : ExprId → Tree) (r : RuleId) (rule : Rule) : StateM Draft Unit := do
  match p.renamed.getD r none with
  | none => return ()
  | some r' =>
    let depth := p.bodies.size
    Draft.giveBody r' (← p.copy depth [r] (p.bodies.getD r default))
    match rule.lookahead with
    | none => return ()
    | some l => Draft.setLookahead r' ⟨← p.copy depth [r] (tree l.expr), l.isExact⟩

/-- Fills in the copies of the rules from number `r` on. -/
def fillAll (p : Plan) (tree : ExprId → Tree) (r : RuleId) : List Rule → StateM Draft Unit
  | [] => return ()
  | rule :: rules => do
    p.fill tree r rule
    p.fillAll tree (r + 1) rules

end Plan

/-- Declares the kept rules, and answers their new numbers. -/
def declareKept (kept : RuleId → Bool) (r : RuleId) :
    List Rule → StateM Draft (List (Option RuleId))
  | [] => return []
  | rule :: rules => do
    let own ← if kept r then some <$> Draft.addRule rule.name else pure none
    return own :: (← declareKept kept (r + 1) rules)

/-- The bodies of all rules as trees. -/
def bodies (g : Grammar) (trees : Array Tree) : Array Tree :=
  g.rules.map fun rule => trees.getD rule.body default

/-- A copy of a grammar with the kept rules alone, some put in place of their uses. -/
def copyGrammar (g : Grammar) (kept : RuleId → Bool) (inlined : Array Bool) :
    Except Grammar.Defect Grammar :=
  let trees := g.trees
  let build : StateM Draft RuleId := do
    let renamed ← declareKept kept 0 g.rules.toList
    let p : Plan := ⟨inlined, bodies g trees, renamed.toArray⟩
    p.fillAll (fun e => trees.getD e default) 0 g.rules.toList
    return p.rename g.root
  let (root, d) := build .empty
  d.finish root

/-! ## Unreachable rules -/

/-- The rules that each rule refers to in its body and its lookahead. -/
def usesOfRules (g : Grammar) : Array (List RuleId) :=
  let trees := g.trees
  g.rules.map fun rule =>
    (trees.getD rule.body default).uses ++
      match rule.lookahead with
      | some l => (trees.getD l.expr default).uses
      | none => []

/-- The rules that can be reached from the root, ascending. -/
def reachable (g : Grammar) : List RuleId :=
  let uses := usesOfRules g
  Reach.reach (fun r => uses.getD r []) g.rules.size [g.root]

/-- The grammar without the rules that its root does not reach. -/
def dropUnreachable (g : Grammar) : Except Grammar.Defect Grammar :=
  let rules := reachable g
  if rules.length = g.rules.size then .ok g
  else
    let kept := marksOf g.rules.size rules
    copyGrammar g (fun r => kept.getD r false) (Array.replicate g.rules.size false)

/-! ## Rules that are used once -/

/-- How often each rule is used in bodies and lookaheads. -/
def useCounts (g : Grammar) : Array Nat :=
  (usesOfRules g).foldl
    (fun counts uses => uses.foldl (fun (c : Array Nat) r => c.modify r (· + 1)) counts)
    (Array.replicate g.rules.size 0)

/-- The rules that some body or lookahead repeats, each marked. -/
def repeatedRules (g : Grammar) : Array Bool :=
  let trees := g.trees
  g.rules.foldl (fun m rule =>
    let m := markAll m (trees.getD rule.body default).repeats
    match rule.lookahead with
    | some l => markAll m (trees.getD l.expr default).repeats
    | none => m) (Array.replicate g.rules.size false)

/-- The rules that are put in place of their uses: used once and not repeated, without a lookahead,
and not the root. -/
def usedOnce (g : Grammar) : Array Bool :=
  let counts := useCounts g
  let repeated := repeatedRules g
  g.rules.mapIdx fun r rule =>
    r != g.root && counts.getD r 0 == 1 && ! repeated.getD r false && rule.lookahead.isNone

/-- The grammar with the rules that are used once in place of their uses. They stay in the grammar,
where nothing refers to them any more. -/
def inlineUsedOnce (g : Grammar) : Except Grammar.Defect Grammar :=
  let inlined := usedOnce g
  if inlined.contains true then copyGrammar g (fun _ => true) inlined else .ok g

end Reduced

/-- A reduced grammar that describes the same. -/
def Grammar.reduced (g : Grammar) : Except Grammar.Defect Grammar := do
  Reduced.dropUnreachable (← Reduced.inlineUsedOnce (← Reduced.dropUnreachable g))

end ConstrainedDecoding
