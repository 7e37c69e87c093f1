import ConstrainedDecoding.Grammar.Draft

/-!
# Union and concatenation

The members are imported side by side under a new rule `root`; rules whose names clash get numbers.
-/
namespace ConstrainedDecoding.Grammar

/-- Imports grammars and adds a reference to each of their roots. -/
def embedAll : List Grammar → StateM Draft (List ExprId)
  | [] => return []
  | g :: gs => do
    let r ← Draft.embed g
    let e ← Draft.addLeaf (.reference r)
    return e :: (← embedAll gs)

/-- Grammars under a common root, whose body is made from the references to their roots. -/
def combine (gs : List Grammar) (body : List ExprId → StateM Draft ExprId) :
    Except Defect Grammar :=
  let build : StateM Draft RuleId := do
    let root ← Draft.addRule "root"
    let refs ← embedAll gs
    Draft.giveBody root (← body refs)
    return root
  let (root, d) := build .empty
  d.finish root

/-- Describes what some member describes; the union of nothing describes nothing. -/
def union (gs : List Grammar) : Except Defect Grammar :=
  combine gs fun refs => do
    if refs.isEmpty then Draft.addLeaf (.charClass ⟨false, []⟩)
    else Draft.add (.choice (← refs.mapM fun r => Draft.add (.sequence [r])))

/-- Describes what the members describe one after the other; the concatenation of nothing
describes the empty string. -/
def concat (gs : List Grammar) : Except Defect Grammar :=
  combine gs fun refs => do
    if refs.isEmpty then Draft.addLeaf .empty
    else Draft.add (.choice [← Draft.add (.sequence refs)])

end ConstrainedDecoding.Grammar
