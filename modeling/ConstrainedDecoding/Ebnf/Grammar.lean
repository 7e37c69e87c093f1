import ConstrainedDecoding.Ebnf.Parser
import ConstrainedDecoding.Grammar.Draft

/-!
# From declarations to a grammar

Each part of a phrase becomes a node of the arena. A group with a single alternative is spliced
into the sequence around it, an alternative that is only a group contributes its own alternatives,
and a quantified element that needs a rule gets one named after the rule around it.
-/
namespace ConstrainedDecoding

namespace Draft

/-- The parts by which an element enters the sequence around it. -/
def asElements (d : Draft) (e : ExprId) : List ExprId :=
  match d.node? e with
  | some (.choice [single]) =>
    match d.node? single with
    | some (.sequence items) => items
    | _ => [single]
  | _ => [e]

/-- The alternatives by which a sequence enters the choice around it. -/
def asAlternatives (d : Draft) (e : ExprId) : List ExprId :=
  match d.node? e with
  | some (.sequence [single]) =>
    match d.node? single with
    | some (.choice items) => items
    | _ => [e]
  | _ => [e]

/-- Gives a node a rule of its own, named after `rule`. The body of the new rule is a choice. -/
def hoist (rule : String) (e : ExprId) : StateM Draft RuleId := do
  let body ← match (← get).node? e with
    | some (.choice _) => pure e
    | _ => do
      let s ← add (.sequence [e])
      add (.choice [s])
  let r ← addFreshRule rule
  giveBody r body
  return r

/-- Repeats a node within the rule named `rule`. -/
def repeated (rule : String) (e : ExprId) (least : UInt32) (most : Option UInt32) :
    StateM Draft ExprId := do
  match (← get).node? e with
  | some (.leaf (.reference r)) => addLeaf (.repetition r least most)
  | some (.leaf (.charClass set)) =>
    if least = 0 ∧ most = none then addLeaf (.charClassStar set)
    else
      let r ← hoist rule e
      addLeaf (.repetition r least most)
  | _ =>
    let r ← hoist rule e
    addLeaf (.repetition r least most)

end Draft

namespace Ebnf

mutual

/-- Adds the nodes of a phrase within the rule named `rule`. -/
def Phrase.draw (rule : String) : Phrase → StateM Draft ExprId
  | .empty => Draft.addLeaf .empty
  | .literal text => Draft.addLeaf (.literal (Utf8.ofString text))
  | .charClass set => Draft.addLeaf (.charClass set)
  | .reference r => Draft.addLeaf (.reference r)
  | .quantified body least most => do
    let e ← body.draw rule
    Draft.repeated rule e least most
  | .sequence items => do
    let elements ← drawElements rule items
    Draft.add (.sequence elements)
  | .choice items => do
    let alternatives ← drawAlternatives rule items
    Draft.add (.choice alternatives)

/-- Adds the nodes of the elements of a sequence. -/
def drawElements (rule : String) : List Phrase → StateM Draft (List ExprId)
  | [] => return []
  | p :: ps => do
    let e ← p.draw rule
    let elements := (← get).asElements e
    return elements ++ (← drawElements rule ps)

/-- Adds the nodes of the alternatives of a choice. -/
def drawAlternatives (rule : String) : List Phrase → StateM Draft (List ExprId)
  | [] => return []
  | p :: ps => do
    let e ← p.draw rule
    let alternatives := (← get).asAlternatives e
    return alternatives ++ (← drawAlternatives rule ps)

end

/-- Adds a declaration to a draft in which its rule is declared. -/
def Declaration.draw (d : Declaration) : StateM Draft Unit := do
  let body ← d.body.draw d.name
  Draft.giveBody d.rule body
  match d.lookahead with
  | none => pure ()
  | some p =>
    let e ← p.draw d.name
    Draft.setLookahead d.rule ⟨e, false⟩

/-- The draft that declarations describe: all declared rules first, then their bodies in order. -/
def draft (ds : List Declaration) : Draft :=
  let build : StateM Draft Unit := do
    for d in ds do
      let _ ← Draft.addRule d.name
    for d in ds do
      d.draw
  (build .empty).2

end Ebnf

namespace Grammar

/-- Why a text is not a grammar: it cannot be read, or what it describes has a defect. -/
inductive TextFault
  | ebnf (fault : Ebnf.Fault)
  | defect (d : Defect)
  deriving DecidableEq

def TextFault.message : TextFault → String
  | .ebnf fault => fault.message
  | .defect d => d.message

/-- The grammar that a text describes, with the given root rule. -/
def parse (text root : String) : Except TextFault Grammar :=
  match Ebnf.parse text root with
  | .error fault => .error (.ebnf fault)
  | .ok ds => ((Ebnf.draft ds).finishNamed root).mapError .defect

end Grammar

end ConstrainedDecoding
