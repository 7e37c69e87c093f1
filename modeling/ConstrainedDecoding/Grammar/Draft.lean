import ConstrainedDecoding.Grammar.NameTable

/-!
# Drafts of grammars

A draft is a grammar under construction: rules may lack a body, and numbers may lead nowhere.
`Draft.finish` checks it and answers the grammar or the first defect. The operations that add to a
draft are state actions, and each answers the number of what it added; numbers have no upper bound.
-/
namespace ConstrainedDecoding

/-- What keeps a draft from being a grammar. -/
inductive Grammar.Defect
  | rootNotFound (name : String)
  | rootOutOfRange (root : RuleId)
  | noBody (rule : String)
  | danglingBody (rule : String) (body : ExprId)
  | danglingLookahead (rule : String) (expr : ExprId)
  | missingRule (expr : ExprId) (rule : RuleId)
  | repetitionBounds (expr : ExprId) (least most : UInt32)
  | forwardChild (expr child : ExprId)
  deriving DecidableEq

/-- The wording of a defect. -/
def Grammar.Defect.message : Grammar.Defect → String
  | .rootNotFound name => s!"root rule '{name}' not found"
  | .rootOutOfRange root => s!"root rule id {root} out of range"
  | .noBody rule => s!"rule '{rule}' has no body"
  | .danglingBody rule body => s!"rule '{rule}' has dangling body id {body}"
  | .danglingLookahead rule expr => s!"rule '{rule}' has dangling lookahead id {expr}"
  | .missingRule expr rule => s!"expression {expr} references missing rule {rule}"
  | .repetitionBounds expr least most =>
    s!"expression {expr} has repeat bounds \x7b{least},{most}\x7d"
  | .forwardChild expr child => s!"expression {expr} has forward or dangling child {child}"

/-- A rule of a draft. -/
structure DraftRule where
  name : String
  body : Option ExprId
  lookahead : Option Lookahead
  deriving DecidableEq

/-- A grammar under construction. -/
structure Draft where
  rules : Array DraftRule
  exprs : Array Expr
  names : NameTable

namespace Draft

def empty : Draft := ⟨#[], #[], .empty⟩

/-- Adds a rule without a body. -/
def addRule (name : String) : StateM Draft RuleId := fun d =>
  (d.rules.size, { d with rules := d.rules.push ⟨name, none, none⟩, names := d.names.declare name })

/-- Adds a rule whose name is `base`, or `base` with the first number that makes it new. -/
def addFreshRule (base : String) : StateM Draft RuleId := fun d => addRule (d.names.unused base) d

/-- The number that stands for a missing body wherever a body is given by its number. -/
def noBody : ExprId := 4294967295

/-- Sets the body of a rule by its number. -/
def setBody (r : RuleId) (body : ExprId) : StateM Draft Unit := modify fun d =>
  { d with rules := d.rules.modify r fun rule =>
    { rule with body := if body = noBody then none else some body } }

/-- Gives a rule a node of the arena as its body. -/
def giveBody (r : RuleId) (body : ExprId) : StateM Draft Unit := modify fun d =>
  { d with rules := d.rules.modify r fun rule => { rule with body := some body } }

/-- Sets the lookahead of a rule. -/
def setLookahead (r : RuleId) (l : Lookahead) : StateM Draft Unit := modify fun d =>
  { d with rules := d.rules.modify r fun rule => { rule with lookahead := some l } }

/-- Adds a node to the arena. -/
def add (e : Expr) : StateM Draft ExprId := fun d =>
  (d.exprs.size, { d with exprs := d.exprs.push e })

/-- Adds a leaf to the arena. -/
def addLeaf (l : Leaf) : StateM Draft ExprId := add (.leaf l)

/-- The node with a number. -/
def node? (d : Draft) (e : ExprId) : Option Expr := d.exprs[e]?

/-- Copies a grammar into the draft: rules whose names are taken get new ones, and all numbers
move up by what the draft held before. Answers the new number of the grammar's root. -/
def embed (g : Grammar) : StateM Draft RuleId := do
  let d ← get
  let rules := d.rules.size
  let exprs := d.exprs.size
  for rule in g.rules do
    let r ← addFreshRule rule.name
    giveBody r (rule.body + exprs)
    match rule.lookahead with
    | some l => setLookahead r ⟨l.expr + exprs, l.isExact⟩
    | none => pure ()
  for e in g.exprs do
    let _ ← add (match e with
      | .leaf l => .leaf (l.mapRule (· + rules))
      | .sequence items => .sequence (items.map (· + exprs))
      | .choice items => .choice (items.map (· + exprs)))
  return g.root + rules

open Grammar (Defect)

/-- A rule of the draft as a rule of a grammar with `size` nodes. -/
def finishRule (size : Nat) (r : DraftRule) : Except Defect Rule :=
  match r.body with
  | none => .error (.noBody r.name)
  | some body =>
    if size ≤ body then .error (.danglingBody r.name body)
    else
      match r.lookahead with
      | some l =>
        if size ≤ l.expr then .error (.danglingLookahead r.name l.expr)
        else .ok ⟨r.name, body, some l⟩
      | none => .ok ⟨r.name, body, none⟩

/-- Checks the node with number `i` in a grammar with `rules` rules. -/
def checkExpr (rules : Nat) (i : ExprId) (e : Expr) : Except Defect Unit :=
  match e with
  | .leaf l =>
    match l.rule? with
    | some r =>
      if rules ≤ r then .error (.missingRule i r)
      else
        match l with
        | .repetition _ least (some most) =>
          if most < least then .error (.repetitionBounds i least most) else .ok ()
        | _ => .ok ()
    | none => .ok ()
  | .sequence items | .choice items =>
    match items.find? (i ≤ ·) with
    | some child => .error (.forwardChild i child)
    | none => .ok ()

/-- Checks the nodes of an arena from number `i` on. -/
def checkExprs (rules : Nat) : Nat → List Expr → Except Defect Unit
  | _, [] => .ok ()
  | i, e :: es => do checkExpr rules i e; checkExprs rules (i + 1) es

/-- The grammar that the draft describes, with the given rule as its root. -/
def finish (d : Draft) (root : RuleId) : Except Defect Grammar := do
  if d.rules.size ≤ root then throw (.rootOutOfRange root)
  let rules ← d.rules.toList.mapM (finishRule d.exprs.size)
  checkExprs d.rules.size 0 d.exprs.toList
  return ⟨rules.toArray, d.exprs, root⟩

/-- The grammar that the draft describes, with the first rule of a name as its root. -/
def finishNamed (d : Draft) (root : String) : Except Defect Grammar :=
  match d.names.find? root with
  | some r => d.finish r
  | none => .error (.rootNotFound root)

end Draft

end ConstrainedDecoding
