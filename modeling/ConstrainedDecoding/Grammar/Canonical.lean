import ConstrainedDecoding.Grammar.Draft

/-!
# Canonical form

In canonical form the body of a rule is a leaf, a sequence of leaves, or a choice among leaves and
sequences of leaves. Nested sequences are spliced into the sequence around them, nested choices into
the choice around them, and a choice inside a sequence becomes a rule of its own, named after the
rule that it stands in. Numbers and names of the given rules stay as they are.
-/
namespace ConstrainedDecoding

/-- Whether a tree is a choice once sequences and choices of one part are taken for that part. -/
def Tree.isChoiceInside : Tree → Bool
  | .leaf _ => false
  | .sequence [t] | .choice [t] => t.isChoiceInside
  | .sequence _ => false
  | .choice _ => true

namespace Canonical

/-- Adds a sequence of leaves. -/
def addSequence (leaves : List ExprId) : StateM Draft ExprId :=
  if leaves.isEmpty then Draft.addLeaf .empty else Draft.add (.sequence leaves)

/-- The alternatives that a node stands for. -/
def alternativesOf (e : ExprId) : StateM Draft (List ExprId) := fun d =>
  match d.node? e with
  | some (.choice items) => (items, d)
  | _ => ([e], d)

mutual

/-- Adds an alternative of a choice of the given rule. -/
def addAlternative (rule : String) : Tree → StateM Draft ExprId
  | .leaf l => Draft.addLeaf l
  | .sequence [t] =>
    if t.isChoiceInside then addAlternative rule t
    else do addSequence (← elements rule t)
  | .sequence items => do addSequence (← elementsOfAll rule items)
  | .choice [t] =>
    if t.isChoiceInside then addAlternative rule t
    else do Draft.add (.choice (← alternativesOf (← addAlternative rule t)))
  | .choice items => do Draft.add (.choice (← alternatives rule items))

/-- Adds the alternatives of a choice. -/
def alternatives (rule : String) : List Tree → StateM Draft (List ExprId)
  | [] => return []
  | t :: ts => do
    let own ← alternativesOf (← addAlternative rule t)
    return own ++ (← alternatives rule ts)

/-- Adds the leaves that a part of a sequence becomes. -/
def elements (rule : String) : Tree → StateM Draft (List ExprId)
  | .leaf .empty => return []
  | .leaf l => do return [← Draft.addLeaf l]
  | .sequence items => elementsOfAll rule items
  | .choice [t] => elements rule t
  | .choice items => do
    let r ← Draft.addFreshRule (rule ++ "_group")
    Draft.giveBody r (← Draft.add (.choice (← alternatives rule items)))
    return [← Draft.addLeaf (.reference r)]

/-- Adds the leaves that parts of a sequence become. -/
def elementsOfAll (rule : String) : List Tree → StateM Draft (List ExprId)
  | [] => return []
  | t :: ts => do
    let own ← elements rule t
    return own ++ (← elementsOfAll rule ts)

end

/-- Adds a body or lookahead of the given rule. -/
def addTree (rule : String) : Tree → StateM Draft ExprId
  | .leaf l => Draft.addLeaf l
  | .sequence items => do addSequence (← elementsOfAll rule items)
  | .choice items => do Draft.add (.choice (← alternatives rule items))

/-- Declares rules without bodies. -/
def declareAll : List Rule → StateM Draft Unit
  | [] => return ()
  | rule :: rules => do
    let _ ← Draft.addRule rule.name
    declareAll rules

/-- Fills in a rule; `tree` finds its trees. -/
def fill (tree : ExprId → Tree) (r : RuleId) (rule : Rule) : StateM Draft Unit := do
  let body ← addTree rule.name (tree rule.body)
  match rule.lookahead with
  | some l =>
    let expr ← addTree rule.name (tree l.expr)
    Draft.giveBody r body
    Draft.setLookahead r ⟨expr, l.isExact⟩
  | none => Draft.giveBody r body

/-- Fills in the rules from number `r` on. -/
def fillAll (tree : ExprId → Tree) (r : RuleId) : List Rule → StateM Draft Unit
  | [] => return ()
  | rule :: rules => do
    fill tree r rule
    fillAll tree (r + 1) rules

/-- The draft of a grammar in canonical form. -/
def draft (g : Grammar) : Draft :=
  let trees := g.trees
  let build : StateM Draft Unit := do
    declareAll g.rules.toList
    fillAll (fun e => trees.getD e default) 0 g.rules.toList
  (build .empty).2

end Canonical

/-- A grammar in canonical form. -/
def Grammar.canonical (g : Grammar) : Except Grammar.Defect Grammar :=
  (Canonical.draft g).finish g.root

end ConstrainedDecoding
