import ConstrainedDecoding.Compiled.Basic
import ConstrainedDecoding.Grammar.Payload

/-!
# Serialized compiled grammars

The payload holds the grammar in its own serialized form, the fingerprint of the vocabulary under a
hash, and the masks. The tables are made anew from the grammar when a payload is read, and the masks are
checked against them and the vocabulary.
-/
namespace ConstrainedDecoding

open Json (Value)
open Payload (word? size? string? list? required? parts?)

/-! ## Writing -/

def TokenSet.toJson : TokenSet → Value
  | .ids l => .object [("ids", .array (l.map .nat))]
  | .bits m => .object [("bits", .array (m.toList.map fun w => .nat w.toNat))]

def TokenMask.toJson (m : TokenMask) : Value :=
  .object [("accepted", m.accepted.toJson), ("uncertain", .array (m.uncertain.map .nat))]

namespace Compiled

/-- A compiled grammar as a payload. Masks are numbered in the order of their first use. -/
def toJson (hash : Vocabulary.Traits → UInt64) (c : Compiled) : Value :=
  let (numbers, masks) := c.pool.inOrderOfUse
  .object [("version", .string payloadVersion),
    ("grammar", .string c.grammar.serialize),
    ("tokenizer_fingerprint", .nat (c.vocabulary.fingerprint hash).toNat),
    ("masks", .array (masks.map TokenMask.toJson)),
    ("state_masks", .array (numbers.map .nat))]

/-- The serialized form of a compiled grammar. -/
def serialize (hash : Vocabulary.Traits → UInt64) (c : Compiled) : String := (c.toJson hash).text

end Compiled

/-! ## Reading -/

def TokenSet.read? : Value → Option TokenSet
  | .object [("ids", v)] => (list? word? v).map .ids
  | .object [("bits", v)] => (list? word? v).map fun ws => .bits (ws.map UInt32.ofNat).toArray
  | _ => none

def TokenMask.read? (v : Value) : Option TokenMask := do
  match ← parts? ["accepted", "uncertain"] v with
  | [accepted, uncertain] =>
    return ⟨← required? TokenSet.read? accepted, ← required? (list? word?) uncertain⟩
  | _ => none

/-- Whether a list is strictly ascending. -/
def isAscending : List Nat → Bool
  | a :: b :: rest => a < b && isAscending (b :: rest)
  | _ => true

/-- Checks a mask against a vocabulary. -/
def TokenMask.check (v : Vocabulary) (m : TokenMask) : Except PayloadFault Unit := do
  match m.accepted with
  | .ids ids =>
    match ids.find? (v.size ≤ ·) with
    | some id => throw (.acceptedOutside id)
    | none => pure ()
  | .bits bits =>
    if bits.size ≠ Bitmask.wordsFor v.size then throw (.bitsetWords bits.size)
  if isAscending m.uncertain && m.uncertain.all (· < v.sortedIds.size) then return ()
  else throw .uncertainOrder

namespace Compiled

/-- The parts of a payload. -/
structure Record where
  grammar : String
  fingerprint : Nat
  masks : List TokenMask
  places : List Nat

def Record.read? (v : Value) : Option Record := do
  return ⟨← required? string? (v.member? "grammar"),
    ← required? size? (v.member? "tokenizer_fingerprint"),
    ← required? (list? TokenMask.read?) (v.member? "masks"),
    ← required? (list? word?) (v.member? "state_masks")⟩

/-- Cuts a list into parts of the given lengths. -/
def cut : List Nat → List Nat → List (List Nat)
  | [], _ => []
  | n :: ns, l => l.take n :: cut ns (l.drop n)

/-- What becomes of an error in a text inside a payload. -/
def innerError : Error → Error
  | .notJson => .payload .innerNotJson
  | .grammar fault => .payload (.lowering fault)
  | e => e

/-- The compiled grammar that a serialized form describes, for the vocabulary that it was compiled
against. -/
def deserialize (hash : Vocabulary.Traits → UInt64) (text : String) (v : Vocabulary) :
    Except Error Compiled := do
  let payload ← Payload.parse text
  match Record.read? payload with
  | none => throw (.payload .shape)
  | some record =>
    if record.fingerprint ≠ (v.fingerprint hash).toNat then throw (.payload .otherTokenizer)
    let grammar ← (Grammar.deserialize record.grammar).mapError innerError
    let lowered ← grammar.lowered.mapError fun f => .payload (.lowering f)
    let tables ← lowered.tables.mapError fun f => .payload (.lowering f)
    let sizes := tables.toList.map Table.size
    let states := sizes.foldl (· + ·) 0
    if record.places.length ≠ states then
      throw (.payload (.maskCount states record.places.length))
    for m in record.masks do
      (m.check v).mapError .payload
    match record.places.find? (record.masks.length ≤ ·) with
    | some i => throw (.payload (.maskIndex i))
    | none =>
      let places := (cut sizes record.places).map List.toArray
      return ⟨grammar, lowered, v, tables, ⟨record.masks.toArray, places.toArray⟩⟩

end Compiled

end ConstrainedDecoding
