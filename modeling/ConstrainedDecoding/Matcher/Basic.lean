import ConstrainedDecoding.Matcher.Stack
import ConstrainedDecoding.Setting

/-!
# Matchers

A matcher follows a text as tokens or pieces of text are accepted, and can take them back. If the
root rule calls no other, one state of its table says where the text stands; otherwise a stack does.
The history tells what to take back; entries beyond the horizon are forgotten.
-/
namespace ConstrainedDecoding

namespace Matcher

/-- What can be chosen for a matcher. -/
structure Options where
  /-- The ids of the tokens that end the text, if not the vocabulary's. -/
  stop : Setting (List Nat)
  /-- Whether the matcher has finished wherever the grammar may end. -/
  endsAlone : Bool
  /-- How many entries of the history are kept. -/
  horizon : Nat
  /-- How deep rules may be nested, if not as deep as usual. -/
  maxDepth : Setting Nat

/-- The largest size that can be asked for. -/
def maxSize : Nat := 0xFFFFFFFFFFFFFFFF

def Options.default : Options := ⟨.unset, false, maxSize, .unset⟩

/-- How deep rules can be nested at all. -/
def deepest : Nat := 0xFFFFFFFF

/-- Where a text stands. -/
inductive Position
  /-- At a state of the root rule's table. The states before the texts that are recorded come with
  it, the last one first. -/
  | single (state : StateId) (before : List StateId)
  | stacked (stack : Stack)
  deriving DecidableEq

/-- What was accepted. -/
inductive Entry
  | stop
  /-- A text of so many bytes. -/
  | bytes (count : Nat)
  deriving DecidableEq

end Matcher

open Matcher

/-- A matcher. -/
structure Matcher where
  compiled : Compiled
  stopIds : List Nat
  endsAlone : Bool
  horizon : Nat
  maxDepth : Nat
  position : Position
  /-- The last entry comes first. -/
  history : List Entry
  /-- Whether a stop token was accepted. -/
  stopped : Bool

namespace Matcher

/-- Where a text stands before it starts. -/
def startPosition (c : Compiled) (maxDepth : Nat) : Position :=
  if c.isSingle then .single 0 [] else .stacked (Stack.start c maxDepth)

/-- A new matcher; `usualDepth` is how deep rules may be nested if the options do not say. -/
def new (c : Compiled) (o : Options) (usualDepth : Nat) : Matcher :=
  let maxDepth := o.maxDepth.getD usualDepth
  { compiled := c
    stopIds := o.stop.getD c.vocabulary.stopIds
    endsAlone := o.endsAlone
    horizon := o.horizon
    maxDepth := maxDepth
    position := startPosition c (min maxDepth deepest)
    history := []
    stopped := false }

/-- How deep rules may be nested on the stack. -/
def ceiling (m : Matcher) : Nat := min m.maxDepth deepest

/-- The matcher as it was when it was new. -/
def reset (m : Matcher) : Matcher :=
  { m with position := startPosition m.compiled m.ceiling, history := [], stopped := false }

/-- The table of the root rule. -/
def rootTable (m : Matcher) : Table := m.compiled.table m.compiled.root

/-- Whether the grammar may end here. -/
def mayEnd (m : Matcher) : Bool :=
  match m.position with
  | .single s _ => m.rootTable.accepts s
  | .stacked stack => stack.mayEnd

/-- Whether the matcher has finished. -/
def isTerminated (m : Matcher) : Bool := m.stopped || (m.endsAlone && m.mayEnd)

/-! ## Accepting -/

/-- Forgets the oldest entry of the history. -/
def forgetOldest (m : Matcher) : Matcher :=
  match m.history.getLast?, m.position with
  | some (.bytes _), .single s before =>
    { m with history := m.history.dropLast, position := .single s before.dropLast }
  | _, _ => { m with history := m.history.dropLast }

/-- Forgets the oldest `n` entries. -/
def forget : (n : Nat) → Matcher → Matcher
  | 0, m => m
  | n + 1, m => forget n m.forgetOldest

/-- Puts an entry into the history, and forgets the oldest ones beyond the horizon. -/
def record (m : Matcher) (e : Entry) : Matcher :=
  forget (m.history.length + 1 - m.horizon) { m with history := e :: m.history }

/-- Reads a byte string, and says whether all of it can be read. If not, the position is as it was
before. -/
def advance (m : Matcher) (bytes : Bytes) : Bool × Matcher :=
  match m.position with
  | .single s before =>
    match m.rootTable.run? s bytes with
    | some s' => (true, { m with position := .single s' (s :: before) })
    | none => (false, m)
  | .stacked stack =>
    let (done, stack) := stack.advance m.compiled m.ceiling bytes
    (done, { m with position := .stacked stack })

/-- Reads a byte string, and records it if all of it can be read. -/
def read (m : Matcher) (bytes : Bytes) : Bool × Matcher :=
  match m.advance bytes with
  | (true, m) => (true, m.record (.bytes bytes.length))
  | (false, m) => (false, m)

/-- Accepts a byte string as one entry, and says whether it did. -/
def acceptBytes (m : Matcher) (bytes : Bytes) : Bool × Matcher :=
  if m.stopped then (false, m) else m.read bytes

/-- Accepts a text as one entry, and says whether it did. -/
def acceptText (m : Matcher) (text : String) : Bool × Matcher :=
  m.acceptBytes (Utf8.ofString text)

/-- Accepts a token, and says whether it did. A stop token is accepted where the grammar may end;
other tokens that end a text or stand for nothing are not accepted. -/
def acceptToken (m : Matcher) (id : Nat) : Bool × Matcher :=
  let v := m.compiled.vocabulary
  if m.stopped || v.size ≤ id then (false, m)
  else if m.stopIds.contains id then
    if m.mayEnd then (true, { m with stopped := true }.record .stop) else (false, m)
  else if v.isSpecial id || v.stopIds.contains id then (false, m)
  else m.read (v.bytesOf id)

/-! ## Taking back -/

/-- Takes back what an entry stands for. -/
def undo (m : Matcher) (e : Entry) : Matcher :=
  match e, m.position with
  | .stop, _ => { m with stopped := false }
  | .bytes _, .single _ (s :: before) => { m with position := .single s before }
  | .bytes _, .single _ [] => m
  | .bytes count, .stacked stack => { m with position := .stacked (stack.drop count) }

/-- Takes back the last `n` entries, as far as there are so many. -/
def undoLast : (n : Nat) → Matcher → Matcher
  | 0, m => m
  | n + 1, m =>
    match m.history with
    | [] => m
    | e :: rest => undoLast n ({ m with history := rest }.undo e)

/-- Takes back the last `n` entries, if so many are kept, and says whether it did. -/
def rollback (m : Matcher) (n : Nat) : Bool × Matcher :=
  if m.horizon < n ∨ m.history.length < n then (false, m) else (true, undoLast n m)

/-! ## Successful operations -/

/-- The matcher after an operation that was done. -/
def done? : Bool × Matcher → Option Matcher
  | (true, m) => some m
  | (false, _) => none

def acceptBytes? (m : Matcher) (bytes : Bytes) : Option Matcher := done? (m.acceptBytes bytes)

def acceptText? (m : Matcher) (text : String) : Option Matcher := done? (m.acceptText text)

def acceptToken? (m : Matcher) (id : Nat) : Option Matcher := done? (m.acceptToken id)

def rollback? (m : Matcher) (n : Nat) : Option Matcher := done? (m.rollback n)

end Matcher

end ConstrainedDecoding
