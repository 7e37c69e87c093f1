/-!
# Bit masks over token ids

A row of a mask is a run of 32-bit words: bit `i % 32` of word `i / 32` says whether token `i` is
allowed. A buffer holds rows back to back.
-/
namespace ConstrainedDecoding

/-- Words of a mask. -/
abbrev Bitmask := Array UInt32

namespace Bitmask

/-- The number of words for a number of tokens. -/
def wordsFor (tokens : Nat) : Nat := (tokens + 31) / 32

/-- The word with one bit set. -/
def bit (i : Nat) : UInt32 := 1 <<< UInt32.ofNat (i % 32)

/-- A row without any token. -/
def zero (words : Nat) : Bitmask := Array.replicate words 0

/-- Allows a token. -/
def allow (m : Bitmask) (i : Nat) : Bitmask := m.modify (i / 32) (· ||| bit i)

/-- Rejects a token. -/
def reject (m : Bitmask) (i : Nat) : Bitmask := m.modify (i / 32) (· &&& ~~~ bit i)

/-- Whether a token is allowed; tokens past the mask are not. -/
def allows (m : Bitmask) (i : Nat) : Bool := m.getD (i / 32) 0 &&& bit i != 0

/-- Rejects every token. -/
def clear (m : Bitmask) : Bitmask := m.map fun _ => 0

/-- Allows the tokens of another mask too, as far as this one has words. -/
def union (m other : Bitmask) : Bitmask := m.mapIdx fun i w => w ||| other.getD i 0

/-- The number of bits that are set in a word, among `bits` of them from the lowest. -/
def onesIn (w : UInt32) : Nat → Nat
  | 0 => 0
  | bits + 1 => (if w &&& bit bits != 0 then 1 else 0) + onesIn w bits

/-- The number of allowed tokens. -/
def count (m : Bitmask) : Nat := m.foldl (fun n w => n + onesIn w 32) 0

/-- The largest place in a buffer that a machine word can hold. -/
def largestPlace : Nat := 0xFFFFFFFFFFFFFFFF

/-- A place that a machine word can hold. -/
def place? (i : Nat) : Option Nat := if i ≤ largestPlace then some i else none

/-- Where row `batch` of `tokens` bits starts in a buffer of `words` words, if it lies in it. -/
def rowStart? (words tokens batch : Nat) : Option Nat := do
  let size := wordsFor tokens
  let start ← place? (batch * size)
  let stop ← place? (start + size)
  if size = 0 ∨ words < stop then none else some start

/-- The words of a buffer from a place on. -/
def rowAt (buffer : Bitmask) (start words : Nat) : Bitmask := buffer.extract start (start + words)

/-- Puts words into a buffer from a place on. -/
def write (buffer : Bitmask) (start : Nat) (row : Bitmask) : Bitmask :=
  buffer.mapIdx fun i w => if start ≤ i then row.getD (i - start) w else w

/-- Replaces the values of rejected tokens. -/
def applyTo {α : Type} (m : Bitmask) (rejected : α) (values : List α) : List α :=
  values.mapIdx fun i x => if m.allows i then x else rejected

end Bitmask

end ConstrainedDecoding
