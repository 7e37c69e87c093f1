import ConstrainedDecoding.Matcher.Basic

/-!
# Forced text

Where the text may not end and all current states read the same one byte, that byte is forced. The
forced text is the longest run of forced bytes that is well-formed UTF-8, up to a fixed length.
-/
namespace ConstrainedDecoding

/-- How many bytes a forced text has at most. -/
def Matcher.maxForced : Nat := 4096

/-- The bytes that are forced from a state of a table, up to `n` of them. -/
def Table.forced (t : Table) : (n : Nat) → StateId → Bytes
  | 0, _ => []
  | n + 1, s =>
    if t.accepts s then []
    else
      match t.onlyByte? s with
      | none => []
      | some b =>
        match t.next? s b with
        | none => []
        | some s => b :: t.forced n s

namespace Stack

/-- The one byte that all states read, if there is one and there are states. -/
def commonByte? (c : Compiled) : List State → Option UInt8
  | [] => none
  | [s] => (c.table s.rule).onlyByte? s.state
  | s :: states => do
    let b ← (c.table s.rule).onlyByte? s.state
    let b' ← commonByte? c states
    if b = b' then some b else none

/-- Reads what is forced from a stack, up to `n` bytes. Answers the bytes and the stack then. -/
def follow (c : Compiled) (maxDepth : Nat) : (n : Nat) → Stack → Bytes × Stack
  | 0, stack => ([], stack)
  | n + 1, stack =>
    if stack.mayEnd then ([], stack)
    else
      match commonByte? c stack.current.toList with
      | none => ([], stack)
      | some b =>
        match stack.next? c maxDepth b with
        | none => ([], stack)
        | some l =>
          let (bytes, stack) := follow c maxDepth n (stack.push l)
          (b :: bytes, stack)

end Stack

namespace Matcher

/-- The bytes that are forced here, and the matcher afterwards. -/
def findForced (m : Matcher) : Bytes × Matcher :=
  if m.stopped then ([], m)
  else
    match m.position with
    | .single s _ => (m.rootTable.forced maxForced s, m)
    | .stacked stack =>
      let (bytes, ahead) := stack.follow m.compiled m.ceiling maxForced
      (bytes, { m with position := .stacked (ahead.drop bytes.length) })

/-- The text that is forced here, and the matcher afterwards. -/
def jump (m : Matcher) : String × Matcher :=
  let (bytes, m) := m.findForced
  (String.ofList (Utf8.validStart bytes), m)

/-- The text that is forced here. -/
def forcedText (m : Matcher) : String := m.jump.1

end Matcher

end ConstrainedDecoding
