import ConstrainedDecoding.Compiled.Basic

/-!
# Stacks of levels

A stack has a level for the start of the text and one more for each byte that was read. A level
holds the states from which the next byte can be read. A state remembers at which level its rule
was entered, and that level remembers where to go on when the rule ends, so parses that differ
only in what surrounds a rule share the states inside it.

A level is built by a queue: a state that calls rules adds their first states, a state that
accepts adds the states that wait for its rule, and each state is queued at most once. How deep a
state's rule is nested is carried along but does not tell states apart; rules are not called below
a given depth.
-/
namespace ConstrainedDecoding

namespace Stack

/-- A place in the table of a rule. A program can keep the rule and the place in 16 bits each, and the level and
the depth in 32 bits each, with the number of all bits for no level (`State.Fits`): there are fewer than 2^16 rules,
and fewer than 2^16 states in a table, the ceiling has 32 bits, and levels are numbered by the bytes that were
read, which only 2^32 bytes would exhaust. -/
structure State where
  rule : RuleId
  state : StateId
  /-- The level at which the rule was entered; none for the root. -/
  entered : Option Nat
  /-- How deep the rule is nested. -/
  depth : Nat
  deriving DecidableEq

/-- What tells states of one level apart. -/
abbrev Key := RuleId × StateId × Option Nat

/-- Keys are ordered by their parts. -/
def Key.compare : Key → Key → Ordering :=
  (@lexOrd RuleId (StateId × Option Nat) _ lexOrd).compare

instance : Std.TransCmp Key.compare :=
  @Std.instTransOrdProd RuleId (StateId × Option Nat) _ lexOrd _ _

instance : Std.LawfulEqCmp Key.compare :=
  @Std.instLawfulEqOrdProd RuleId (StateId × Option Nat) _ lexOrd _ _

def State.key (s : State) : Key := (s.rule, s.state, s.entered)

/-- A level of a stack. -/
structure Level where
  /-- The states from which a byte can be read. -/
  scannable : Array State
  /-- The rules that were called at this level, each with the state to go on with after it. -/
  returns : Array (RuleId × State)
  /-- Whether the text may end here. -/
  ends : Bool
  deriving DecidableEq

end Stack

/-- The levels of a parse, the first one first. -/
abbrev Stack := Array Stack.Level

namespace Stack

/-- A level under construction. -/
structure Work where
  queue : Array State
  seen : Std.TreeSet Key Key.compare
  scannable : Array State
  returns : Array (RuleId × State)
  /-- The rules that were entered and ended at this level. -/
  finished : List RuleId
  ends : Bool

namespace Work

def empty : Work := ⟨#[], ∅, #[], #[], [], false⟩

/-- Whether a state has not been met at this level. -/
def isNew (w : Work) (s : State) : Bool := ! w.seen.contains s.key

/-- Queues a state. -/
def add (w : Work) (s : State) : Work :=
  { w with queue := w.queue.push s, seen := w.seen.insert s.key }

/-- Queues a state unless it has been met. -/
def addNew (w : Work) (s : State) : Work := if w.isNew s then w.add s else w

/-- Calls a rule at a level. If the rule has been called before, and has ended here without reading
anything, the state after the call is queued at once. -/
def call (level : Nat) (s : State) (w : Work) (rule : RuleId) (target : StateId) : Work :=
  let after := { s with state := target }
  let w := { w with returns := w.returns.push (rule, after) }
  let start : State := ⟨rule, 0, some level, s.depth + 1⟩
  if w.isNew start then w.add start
  else if w.finished.contains rule then w.addNew after
  else w

/-- Queues the states that wait for a rule. -/
def resume (rule : RuleId) (waiting : Array (RuleId × State)) (w : Work) : Work :=
  waiting.foldl (fun w (r, after) => if r = rule then w.addNew after else w) w

/-- Ends the rule of a state: the text may end here if it is the root, and else the states that wait
for it are queued. -/
def finish (stack : Stack) (s : State) (w : Work) : Work :=
  match s.entered with
  | none => { w with ends := true }
  | some level =>
    if level = stack.size then
      let w := if w.finished.contains s.rule then w else { w with finished := s.rule :: w.finished }
      w.resume s.rule w.returns
    else
      match stack[level]? with
      | some l => w.resume s.rule l.returns
      | none => w

/-- Deals with a queued state. -/
def step (c : Compiled) (maxDepth : Nat) (stack : Stack) (s : State) (w : Work) : Work :=
  let t := c.table s.rule
  let w :=
    if s.depth < maxDepth then
      (t.callsOf s.state).foldl (fun w (rule, target) => w.call stack.size s rule target) w
    else w
  let w := if t.accepts s.state then w.finish stack s else w
  if t.scansAt s.state then { w with scannable := w.scannable.push s } else w

/-- Deals with the queued states from number `i` on, and with those queued on the way. -/
def run (c : Compiled) (maxDepth : Nat) (stack : Stack) : (fuel : Nat) → (i : Nat) → Work → Work
  | 0, _, w => w
  | fuel + 1, i, w =>
    match w.queue[i]? with
    | none => w
    | some s => run c maxDepth stack fuel (i + 1) (step c maxDepth stack s w)

/-- How many states can be told apart at the next level of a stack. -/
def capacity (c : Compiled) (stack : Stack) : Nat := c.stateCount * (stack.size + 2)

/-- Deals with all queued states. -/
def runAll (c : Compiled) (maxDepth : Nat) (stack : Stack) (w : Work) : Work :=
  run c maxDepth stack (capacity c stack) 0 w

/-- The level that is built. -/
def level (w : Work) : Level := ⟨w.scannable, w.returns, w.ends⟩

/-- Moves a state over a byte. What can only read further bytes need not be queued. -/
def scan (c : Compiled) (b : UInt8) (w : Work) (s : State) : Work :=
  let t := c.table s.rule
  match t.next? s.state b with
  | none => w
  | some target =>
    let next := { s with state := target }
    if w.isNew next then
      if t.scansAt target && ! t.mayLeave target then
        { w with scannable := w.scannable.push next, seen := w.seen.insert next.key }
      else w.add next
    else w

end Work

/-- The stack before any byte: the root rule is entered. -/
def start (c : Compiled) (maxDepth : Nat) : Stack :=
  #[(Work.runAll c maxDepth #[] (Work.empty.add ⟨c.root, 0, none, 0⟩)).level]

/-- The states from which the next byte can be read. -/
def current (stack : Stack) : Array State :=
  match stack.back? with
  | some l => l.scannable
  | none => #[]

/-- Whether the text may end here. -/
def mayEnd (stack : Stack) : Bool :=
  match stack.back? with
  | some l => l.ends
  | none => false

/-- The level that a byte leads to, unless no parse survives the byte. -/
def next? (c : Compiled) (maxDepth : Nat) (stack : Stack) (b : UInt8) : Option Level :=
  let w := (current stack).foldl (Work.scan c b) .empty
  let l := (Work.runAll c maxDepth stack w).level
  if l.scannable.isEmpty && ! l.ends then none else some l

/-- Reads bytes as far as they can be read. Answers the stack then, the bytes that were read, and
the bytes that were not. -/
def readWhile (c : Compiled) (maxDepth : Nat) (stack : Stack) : Bytes → Stack × Bytes × Bytes
  | [] => (stack, [], [])
  | b :: bs =>
    match next? c maxDepth stack b with
    | none => (stack, [], b :: bs)
    | some l =>
      let (stack, read, rest) := readWhile c maxDepth (stack.push l) bs
      (stack, b :: read, rest)

/-- The number of bytes that were read. -/
def position (stack : Stack) : Nat := stack.size - 1

/-- Takes back the last `count` bytes, as far as there are so many. -/
def drop (stack : Stack) (count : Nat) : Stack := stack.shrink (max 1 (stack.size - count))

/-- Reads a byte string, and says whether all of it can be read. If not, what was read of it is taken
back. -/
def advance (c : Compiled) (maxDepth : Nat) (stack : Stack) (bytes : Bytes) : Bool × Stack :=
  match stack.readWhile c maxDepth bytes with
  | (ahead, _, []) => (true, ahead)
  | (ahead, read, _ :: _) => (false, ahead.drop read.length)

end Stack

end ConstrainedDecoding
