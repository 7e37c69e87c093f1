import ConstrainedDecoding.Tag.Basic
import ConstrainedDecoding.Tag.Watcher

/-!
# The grammar of a tag description

Free text has one rule per state of the trigger watcher. Completing a trigger in free text leads to
the tags that are told by it, and after a tag free text goes on, unless it has to end there. Each
tag is told by the shortest trigger that begins it.
-/
namespace ConstrainedDecoding

namespace Tag

/-- The trigger that tells a tag: the first of the shortest that begin it. -/
def tellingTrigger? (triggers : List String) (tag : Tag) : Option Nat :=
  let begins := triggers.zipIdx.filter fun (t, _) => t.toList.isPrefixOf tag.opening.toList
  let shortest := begins.foldl (fun best (t, k) =>
    match best with
    | some (n, _) => if t.utf8ByteSize < n then some (t.utf8ByteSize, k) else best
    | none => some (t.utf8ByteSize, k)) (none : Option (Nat × Nat))
  shortest.map (·.2)

/-- Adds what follows the trigger of a tag: the rest of its beginning, its contents, its end. -/
def drawRest (trigger : String) (tag : Tag) (contents : Grammar) : StateM Draft ExprId := do
  let root ← Draft.embed contents
  let rest := tag.opening.toList.drop trigger.length
  let opening ← if rest.isEmpty then pure [] else do
    pure [← Draft.addLeaf (.literal (Utf8.encode rest))]
  let body ← Draft.addLeaf (.reference root)
  let closing ← if tag.closing.isEmpty then pure [] else do
    pure [← Draft.addLeaf (.literal (Utf8.ofString tag.closing))]
  Draft.add (.sequence (opening ++ [body] ++ closing))

/-- Adds a rule for the tags that a trigger tells, if there are any. -/
def drawDispatch (trigger : String) (tags : List (Tag × Grammar)) :
    StateM Draft (Option RuleId) := do
  if tags.isEmpty then return none
  let rule ← Draft.addFreshRule "tag_dispatch"
  let alternatives ← tags.mapM fun (tag, contents) => tag.drawRest trigger contents
  Draft.giveBody rule (← Draft.add (.choice alternatives))
  return some rule

namespace Machine

variable {σ : Type} [BEq σ]

/-- The rules of free text: one per state that completes no trigger; the first state has a rule
in any case. -/
def drawRules (m : Machine σ) (name : String) : StateM Draft (List (σ × RuleId)) := do
  let first ← Draft.addFreshRule name
  let others ← m.others.filterMapM fun s => do
    if (m.completed? s).isSome then return none
    else return some (s, ← Draft.addFreshRule name)
  return (m.start, first) :: others

/-- Adds the alternative of a state for one of its characters, if there is one: on to another
state, or into the tags of the trigger that the character completes. -/
def drawStep (m : Machine σ) (rules : List (σ × RuleId)) (dispatch : List (Option RuleId))
    (afterTag : Option RuleId) (state : σ) (c : Char) : StateM Draft (Option ExprId) := do
  let next := m.step state c
  match m.completed? next with
  | some k =>
    match dispatch[k]?.join with
    | none => return none
    | some tags =>
      let char ← Draft.addLeaf (.literal (Utf8.encode [c]))
      let tag ← Draft.addLeaf (.reference tags)
      let after ← match afterTag with
        | none => pure []
        | some r => do pure [← Draft.addLeaf (.reference r)]
      return some (← Draft.add (.sequence ([char, tag] ++ after)))
  | none =>
    let char ← Draft.addLeaf (.literal (Utf8.encode [c]))
    let on ← Draft.addLeaf (.reference ((rules.lookup next).getD 0))
    return some (← Draft.add (.sequence [char, on]))

/-- Sets the bodies of free text. `afterTag` is where free text goes on after a tag. -/
def drawBodies (m : Machine σ) (rules : List (σ × RuleId)) (mayEnd : Bool)
    (afterTag : Option RuleId) (dispatch : List (Option RuleId)) : StateM Draft Unit := do
  let start := (rules.lookup m.start).getD 0
  for (state, rule) in rules do
    if (m.completed? state).isNone then
      let ending ← if mayEnd then do
          let e ← Draft.addLeaf .empty
          pure [← Draft.add (.sequence [e])]
        else pure []
      let chars := m.continuations state
      let codes := chars.map fun c => (UInt32.ofNat c.toNat, UInt32.ofNat c.toNat)
      let other ← Draft.addLeaf (.charClass ⟨true, codes⟩)
      let restart ← Draft.addLeaf (.reference start)
      let back ← Draft.add (.sequence [other, restart])
      let steps ← chars.filterMapM (m.drawStep rules dispatch afterTag state)
      Draft.giveBody rule (← Draft.add (.choice (ending ++ [back] ++ steps)))

end Machine

end Tag

namespace TagDescription

open Tag (Watcher)

/-- Adds the rules of the description and answers the rule where the text starts. -/
def draw (d : TagDescription) (contents : List Grammar) : StateM Draft RuleId := do
  let watcher := (Watcher.ofTriggers (d.triggers.map String.toList)).machine
  let tags := d.tags.zip contents
  let dispatch ← d.triggers.zipIdx.mapM fun (trigger, k) =>
    Tag.drawDispatch trigger (tags.filter fun (tag, _) => tag.tellingTrigger? d.triggers == some k)
  let start (rules : List (Nat × RuleId)) : RuleId := (rules.lookup watcher.start).getD 0
  if d.atLeastOne ∧ ¬ d.stopAfterFirst then
    let before ← watcher.drawRules "leading_text"
    let after ← watcher.drawRules "free_text"
    watcher.drawBodies before false (some (start after)) dispatch
    watcher.drawBodies after true (some (start after)) dispatch
    return start before
  else
    let text ← watcher.drawRules "free_text"
    if d.stopAfterFirst then watcher.drawBodies text (! d.atLeastOne) none dispatch
    else watcher.drawBodies text true (some (start text)) dispatch
    return start text

/-- The grammar of the texts that the description allows. -/
def grammar (d : TagDescription) : Except Error Grammar := do
  let contents ← d.tags.mapM (·.content.grammar)
  let build : StateM Draft RuleId := do
    let root ← Draft.addRule "root"
    let entry ← d.draw contents
    let e ← Draft.addLeaf (.reference entry)
    let s ← Draft.add (.sequence [e])
    Draft.giveBody root (← Draft.add (.choice [s]))
    return root
  let (root, draft) := build .empty
  (draft.finish root).mapError fun defect => .grammar (.text (.defect defect))

end TagDescription

/-- The grammar that a tag description, given as JSON, describes. -/
def Grammar.ofTags (text : String) : Except Error Grammar := do
  (← TagDescription.parse text).grammar

end ConstrainedDecoding
