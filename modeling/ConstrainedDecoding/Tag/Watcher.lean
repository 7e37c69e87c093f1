/-!
# Watching free text for triggers

The watcher of free text is an automaton whose states are the beginnings of triggers. They form a tree
that grows with each trigger, and are numbered as they are added; state 0 is the empty text. Then each
state is linked to its longest proper end that is a state, shorter states first, as the links of shorter
states tell where to link longer ones. A state completes its own trigger, or else that of its link.
-/
namespace ConstrainedDecoding.Tag

/-- An automaton that reads free text. -/
structure Watcher where
  /-- For each state, the characters that lengthen it to a state, in ascending order, and that state. -/
  children : Array (List (Char × Nat))
  /-- For each state, its longest proper end that is a state. -/
  links : Array Nat
  /-- For each state, the trigger that it completes. -/
  completes : Array (Option Nat)
  deriving DecidableEq

namespace Watcher

/-- The number of states. -/
def size (a : Watcher) : Nat := a.children.size

def childrenOf (a : Watcher) (s : Nat) : List (Char × Nat) := a.children.getD s []

def linkOf (a : Watcher) (s : Nat) : Nat := a.links.getD s 0

def completed? (a : Watcher) (s : Nat) : Option Nat := a.completes.getD s none

/-! ## Reading -/

/-- Goes along links, from a state to the empty text. -/
def follow (a : Watcher) : Nat → Nat → List Nat
  | 0, _ => []
  | steps + 1, s => s :: if s = 0 then [] else a.follow steps (a.linkOf s)

/-- The ends of a state that are states, from the state itself to the empty text. -/
def ends (a : Watcher) (s : Nat) : List Nat := a.follow a.size s

/-- The state after one more character: what lengthens the longest end that the character lengthens. -/
def step (a : Watcher) (s : Nat) (c : Char) : Nat :=
  ((a.ends s).findSome? fun e => (a.childrenOf e).lookup c).getD 0

/-- The state after a whole text. -/
def run (a : Watcher) (text : List Char) : Nat := text.foldl a.step 0

/-- The characters that lead from a state to another one than the empty text, in ascending order. -/
def continuations (a : Watcher) (s : Nat) : List Char :=
  let chars := (a.ends s).flatMap fun e => (a.childrenOf e).map (·.1)
  chars.eraseDups.mergeSort fun a b => a ≤ b

/-! ## Growing the tree -/

/-- Only the empty text. -/
def empty : Watcher := ⟨#[[]], #[], #[none]⟩

/-- Puts a character, and the state that it leads to, before the characters that come after it. -/
def putChild (c : Char) (s : Nat) : List (Char × Nat) → List (Char × Nat)
  | [] => [(c, s)]
  | (d, r) :: rest => if c < d then (c, s) :: (d, r) :: rest else (d, r) :: putChild c s rest

/-- Goes from a state along a text, adds the states that are missing, and answers the last one. -/
def extend (a : Watcher) (s : Nat) : List Char → Nat × Watcher
  | [] => (s, a)
  | c :: text =>
    match (a.childrenOf s).lookup c with
    | some next => a.extend next text
    | none =>
      let next := a.size
      let children := (a.children.push []).modify s (putChild c next)
      extend { a with children, completes := a.completes.push none } next text

/-- Adds a trigger and its number. Of equal triggers the first counts. -/
def addTrigger (a : Watcher) (trigger : List Char × Nat) : Watcher :=
  let (s, a) := a.extend 0 trigger.1
  { a with completes := a.completes.modify s fun k? => k? <|> some trigger.2 }

/-! ## Linking -/

/-- Links a child of a state to the state where the character leads from the link of its parent. -/
def linkChild (parent : Nat) (a : Watcher) (child : Char × Nat) : Watcher :=
  let link := if parent = 0 then 0 else a.step (a.linkOf parent) child.1
  { a with
    links := a.links.setIfInBounds child.2 link
    completes := a.completes.modify child.2 fun k? => k? <|> a.completed? link }

/-- Links the children of the states that wait in a queue, which then wait themselves. -/
def linkFrom : Nat → List Nat → Watcher → Watcher
  | 0, _, a => a
  | _ + 1, [], a => a
  | turns + 1, s :: queue, a =>
    linkFrom turns (queue ++ (a.childrenOf s).map (·.2)) ((a.childrenOf s).foldl (linkChild s) a)

/-- Links all states. Those of a single character are linked to the empty text; each state waits once. -/
def link (a : Watcher) : Watcher :=
  linkFrom a.size ((a.childrenOf 0).map (·.2)) { a with links := Array.replicate a.size 0 }

/-- The watcher for some triggers. -/
def ofTriggers (triggers : List (List Char)) : Watcher :=
  (triggers.zipIdx.foldl addTrigger empty).link

end Watcher

/-- What free text is drawn from: an automaton that reads it. -/
structure Machine (σ : Type) where
  start : σ
  /-- The states but the first. -/
  others : List σ
  step : σ → Char → σ
  /-- The trigger that a state completes. -/
  completed? : σ → Option Nat
  /-- The characters that lead from a state to another one than the first. -/
  continuations : σ → List Char

/-- The watcher as a machine. -/
def Watcher.machine (a : Watcher) : Machine Nat where
  start := 0
  others := List.range' 1 (a.size - 1)
  step := a.step
  completed? := a.completed?
  continuations := a.continuations

end ConstrainedDecoding.Tag
