/-!
# UTF-8

Byte strings are lists of bytes. This module writes characters as UTF-8, reads them back strictly
(no overlong forms, no surrogates, nothing above U+10FFFF), and splits an arbitrary byte string
into its characters and the stray bytes between them.
-/
namespace ConstrainedDecoding

/-- A byte string. -/
abbrev Bytes := List UInt8

namespace Utf8

/-- The UTF-8 form of a list of characters. -/
def encode (cs : List Char) : Bytes := cs.flatMap String.utf8EncodeChar

/-- The UTF-8 form of a text. -/
def ofString (s : String) : Bytes := encode s.toList

/-- The size of a list of characters in bytes. -/
def size (cs : List Char) : Nat := (cs.map Char.utf8Size).foldl (· + ·) 0

@[simp] theorem encode_nil : encode [] = [] := rfl

@[simp] theorem encode_cons (c : Char) (cs : List Char) :
    encode (c :: cs) = String.utf8EncodeChar c ++ encode cs := rfl

@[simp] theorem encode_append (cs ds : List Char) : encode (cs ++ ds) = encode cs ++ encode ds := by
  simp [encode]

/-- A continuation byte carries six bits after the mark `10`. -/
def isContinuation (b : UInt8) : Bool := 0x80 ≤ b && b < 0xC0

/-- The number of bytes that a lead byte announces, its payload bits, and the least code point
that needs that many bytes. -/
def lead? (b : UInt8) : Option (Nat × Nat × Nat) :=
  if b < 0x80 then some (1, b.toNat, 0)
  else if b < 0xC0 then none
  else if b < 0xE0 then some (2, b.toNat - 0xC0, 0x80)
  else if b < 0xF0 then some (3, b.toNat - 0xE0, 0x800)
  else if b < 0xF8 then some (4, b.toNat - 0xF0, 0x10000)
  else none

/-- The code point that a lead payload and its continuation bytes spell. -/
def codePoint (payload : Nat) (tail : Bytes) : Nat :=
  tail.foldl (fun n b => n * 64 + (b.toNat - 0x80)) payload

/-- The first character of a byte string and the bytes after it, if the string starts with a
well-formed UTF-8 sequence. -/
def next? : Bytes → Option (Char × Bytes)
  | [] => none
  | b :: bs =>
    match lead? b with
    | none => none
    | some (size, payload, least) =>
      let tail := bs.take (size - 1)
      let n := codePoint payload tail
      if tail.length = size - 1 ∧ tail.all isContinuation ∧ least ≤ n then
        if n.isValidChar then some (Char.ofNat n, bs.drop (size - 1)) else none
      else none

theorem length_of_next? {bs rest : Bytes} {c : Char} (h : next? bs = some (c, rest)) :
    rest.length < bs.length := by
  cases bs with
  | nil => simp [next?] at h
  | cons b bs =>
    simp only [next?] at h
    split at h
    · simp at h
    · split at h
      · split at h
        · simp only [Option.some.injEq, Prod.mk.injEq] at h
          rw [← h.2]
          simp only [List.length_drop, List.length_cons]
          omega
        · simp at h
      · simp at h

/-- A part of a byte string: a character, or a byte that belongs to none. -/
inductive Piece
  | char (c : Char)
  | stray (b : UInt8)
  deriving DecidableEq

/-- The characters of a byte string and its stray bytes, in order. -/
def pieces (bs : Bytes) : List Piece :=
  match _h : next? bs with
  | some (c, rest) => .char c :: pieces rest
  | none =>
    match bs with
    | [] => []
    | b :: rest => .stray b :: pieces rest
termination_by bs.length
decreasing_by
  · exact length_of_next? (by assumption)
  · simp

/-- The longest list of characters whose UTF-8 form begins the byte string. -/
def validStart (bs : Bytes) : List Char :=
  match _h : next? bs with
  | some (c, rest) => c :: validStart rest
  | none => []
termination_by bs.length
decreasing_by exact length_of_next? (by assumption)

/-- The text that a byte string is the UTF-8 form of. -/
def decode? (bs : Bytes) : Option (List Char) :=
  match _h : next? bs with
  | some (c, rest) => (decode? rest).map (c :: ·)
  | none => if bs.isEmpty then some [] else none
termination_by bs.length
decreasing_by exact length_of_next? (by assumption)

end Utf8

end ConstrainedDecoding
