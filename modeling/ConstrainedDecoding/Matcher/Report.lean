import ConstrainedDecoding.Matcher.Basic

/-!
# Reports on matchers

A report tells in a few lines where a matcher stands.
-/
namespace ConstrainedDecoding.Matcher

/-- The line of a state of a stack. -/
def stateLine (c : Compiled) (s : Stack.State) : String :=
  let mask := c.mask s.rule s.state
  let name := c.lowered.ruleName s.rule
  let state := s.state
  let entered := match s.entered with
    | none => "root"
    | some level => toString level
  let depth := s.depth
  let accepted := mask.acceptedCount
  let uncertain := mask.uncertain.length
  s!"  rule `{name}` state {state} (entered at {entered}, depth {depth}): " ++
    s!"{accepted} accepted, {uncertain} uncertain"

/-- The lines about the position. -/
def positionLines (m : Matcher) : List String :=
  match m.position with
  | .single s _ =>
    let name := m.compiled.lowered.ruleName m.compiled.root
    [s!"single DFA: rule `{name}` state {s}"]
  | .stacked stack =>
    let position := stack.position
    let states := stack.foldl (fun n l => n + l.scannable.size) 0
    let returns := stack.foldl (fun n l => n + l.returns.size) 0
    s!"stack parser: position {position}, {states} states and {returns} return entries stored" ::
      stack.current.toList.map (stateLine m.compiled)

/-- The report, line by line. -/
def reportLines (m : Matcher) : List String :=
  let terminated := m.isTerminated
  let mayEnd := m.mayEnd
  let tokens := m.history.length
  let depth := m.maxDepth
  (s!"terminated: {terminated}, can_terminate: {mayEnd}, history: {tokens} tokens, " ++
    s!"max_recursion_depth: {depth}") :: m.positionLines

/-- The report. Each of its lines is ended. -/
def report (m : Matcher) : String := String.join (m.reportLines.map (· ++ "\n"))

end ConstrainedDecoding.Matcher
