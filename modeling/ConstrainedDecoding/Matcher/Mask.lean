import ConstrainedDecoding.Matcher.Basic

/-!
# Masks of the next token

The mask of a matcher allows the tokens that it would accept next. The accepted tokens of the
current states come from their token masks. The uncertain tokens are tried on the stack, in the
order of their bytes: what a token has in common with the token before it is not read again, and a
token that starts with bytes that could not be read is left out at once.
-/
namespace ConstrainedDecoding

namespace Matcher

/-- How many bytes two byte strings have in common at their start. -/
def commonLength : Bytes → Bytes → Nat
  | a :: as, b :: bs => if a = b then commonLength as bs + 1 else 0
  | _, _ => 0

/-- A row for which tokens are tried. -/
structure Trial where
  /-- The stack after the bytes that were read for the last token. -/
  stack : Stack
  /-- The bytes that were read. -/
  read : Bytes
  /-- Bytes that cannot be read, if there are any. -/
  dead : Bytes
  row : Bitmask

namespace Trial

/-- Reads the bytes of a token. What they have in common with the bytes before is kept. -/
def attempt (c : Compiled) (maxDepth : Nat) (t : Trial) (id : Nat) (bytes : Bytes) : Trial :=
  let common := commonLength bytes t.read
  let stack := t.stack.drop (t.read.length - common)
  match stack.readWhile c maxDepth (bytes.drop common) with
  | (stack, read, []) => ⟨stack, bytes.take common ++ read, [], t.row.allow id⟩
  | (stack, read, b :: _) =>
    let read := bytes.take common ++ read
    ⟨stack, read, read ++ [b], t.row⟩

/-- Tries the token at a place of the sorted tokens. -/
def token (c : Compiled) (maxDepth : Nat) (t : Trial) (place : Nat) : Trial :=
  let id := c.vocabulary.sortedIds.getD place 0
  let bytes := c.vocabulary.bytesOf id
  if t.row.allows id || (! t.dead.isEmpty && t.dead.isPrefixOf bytes) then t
  else t.attempt c maxDepth id bytes

end Trial

/-- Allows those tokens in a row, of the given places of the sorted tokens, whose bytes a stack can
read. What was read of them is taken back in the end. -/
def tryTokens (c : Compiled) (maxDepth : Nat) (stack : Stack) (places : List Nat) (row : Bitmask) :
    Bitmask × Stack :=
  let t := places.foldl (Trial.token c maxDepth) ⟨stack, [], [], row⟩
  (t.row, t.stack.drop t.read.length)

/-- The distinct places in tables of some states, in order. -/
def distinctPlaces (states : List Stack.State) : List (RuleId × StateId) :=
  (states.map fun s => (s.rule, s.state)).eraseDups

/-- The row of tokens that a stack can read, and the stack afterwards. -/
def stackRow (c : Compiled) (maxDepth : Nat) (stack : Stack) (row : Bitmask) : Bitmask × Stack :=
  let masks := (distinctPlaces stack.current.toList).map fun (r, s) => c.mask r s
  let row := masks.foldl (fun row m => m.applyTo row) row
  let uncertain := masks.flatMap (·.uncertain)
  let places := if masks.length ≤ 1 then uncertain else Nfa.ascending uncertain
  tryTokens c maxDepth stack places row

/-- Allows the stop tokens where the text may end, and rejects them elsewhere. -/
def setStops (m : Matcher) (row : Bitmask) : Bitmask :=
  m.stopIds.foldl (fun row id =>
    if m.compiled.vocabulary.size ≤ id then row
    else if m.mayEnd then row.allow id else row.reject id) row

/-- A row after the tokens that may come next were written over what it held, and the matcher
afterwards. -/
def overwrite (m : Matcher) (row : Bitmask) : Bitmask × Matcher :=
  let row := row.clear
  if m.stopped then (row, m)
  else
    match m.position with
    | .single s _ => (m.setStops ((m.compiled.mask m.compiled.root s).applyTo row), m)
    | .stacked stack =>
      let (row, stack) := stackRow m.compiled m.ceiling stack row
      let m := { m with position := .stacked stack }
      (m.setStops row, m)

/-- The row of the tokens that may come next. -/
def row (m : Matcher) : Bitmask :=
  (m.overwrite (Bitmask.zero (Bitmask.wordsFor m.compiled.vocabulary.size))).1

/-- Writes over row `batch` of a buffer, if the buffer has it. Answers the buffer then, and the
matcher afterwards. -/
def fill (m : Matcher) (buffer : Bitmask) (batch : Nat) : Option Bitmask × Matcher :=
  let size := m.compiled.vocabulary.size
  match Bitmask.rowStart? buffer.size size batch with
  | none => (none, m)
  | some start =>
    let (row, m) := m.overwrite (buffer.rowAt start (Bitmask.wordsFor size))
    (some (buffer.write start row), m)

/-- The buffer after the row was written, if the buffer has it. -/
def fill? (m : Matcher) (buffer : Bitmask) (batch : Nat) : Option Bitmask := (m.fill buffer batch).1

end Matcher

end ConstrainedDecoding
