import ConstrainedDecoding.Marks
import ConstrainedDecoding.Setting
import ConstrainedDecoding.Text.Hexadecimal
import ConstrainedDecoding.Text.Utf8
import ConstrainedDecoding.Vocabulary.Fault

/-!
# Vocabularies

A vocabulary gives each token id the bytes that the token stands for. Stop tokens end a text;
special tokens stand for nothing. All other tokens are sorted by their bytes, and each of them
knows where the run of tokens that start with its bytes ends.
-/
namespace ConstrainedDecoding

namespace Vocabulary

/-- How token strings stand for bytes. -/
inductive Kind
  /-- By their UTF-8 form. -/
  | raw
  /-- `<0xHH>` is a byte, U+2581 is a space, and all else is its UTF-8 form. -/
  | byteFallback
  /-- Each character is a byte, by a fixed table. -/
  | byteLevel
  deriving DecidableEq

/-- The number of a kind in metadata. -/
def Kind.toNat : Kind → Nat
  | .raw => 0
  | .byteFallback => 1
  | .byteLevel => 2

def Kind.ofNat? : Nat → Option Kind
  | 0 => some .raw
  | 1 => some .byteFallback
  | 2 => some .byteLevel
  | _ => none

/-! ## Bytes of tokens -/

/-- The byte that two characters spell: two hexadecimal digits, or a plus sign and one digit. -/
def spelledByte? (a b : Char) : Option UInt8 :=
  if a = '+' then (Text.hexValue? b).map UInt8.ofNat
  else do return UInt8.ofNat ((← Text.hexValue? a) * 16 + (← Text.hexValue? b))

/-- What stands between `<0x` and `>`. -/
def byteTokenBody? (s : List Char) : Option (List Char) :=
  match s with
  | '<' :: '0' :: 'x' :: rest =>
    if rest.getLast? = some '>' then some rest.dropLast else none
  | _ => none

/-- The bytes of a token with fallback to single bytes. -/
def fallbackBytes (token : String) : Except Fault Bytes :=
  let plain := Utf8.encode (token.toList.map fun c => if c = '\u2581' then ' ' else c)
  match byteTokenBody? token.toList with
  | some body =>
    if Utf8.size body = 2 then
      match body with
      | [a, b] =>
        match spelledByte? a b with
        | some byte => .ok [byte]
        | none => .error (.byteToken token)
      | _ => .error (.byteToken token)
    else .ok plain
  | none => .ok plain

/-- The byte that a character stands for in a vocabulary of bytes. Visible Latin-1 characters stand
for themselves, and the other bytes for the characters from U+0100 on, in order. -/
def levelByte? (c : Char) : Option UInt8 :=
  let n := c.toNat
  if (0x21 ≤ n ∧ n ≤ 0x7e) ∨ (0xa1 ≤ n ∧ n ≤ 0xac) ∨ (0xae ≤ n ∧ n ≤ 0xff) then some (UInt8.ofNat n)
  else if 256 ≤ n ∧ n ≤ 288 then some (UInt8.ofNat (n - 256))
  else if 289 ≤ n ∧ n ≤ 322 then some (UInt8.ofNat (n - 289 + 0x7f))
  else if n = 323 then some 0xad
  else none

/-- The bytes of a token whose characters are bytes. -/
def levelBytes (token : String) : Bytes :=
  token.toList.flatMap fun c =>
    match levelByte? c with
    | some b => [b]
    | none => String.utf8EncodeChar c

/-- The bytes that a token stands for. -/
def tokenBytes (kind : Kind) (token : String) : Except Fault Bytes :=
  match kind with
  | .raw => .ok (Utf8.ofString token)
  | .byteFallback => fallbackBytes token
  | .byteLevel => .ok (levelBytes token)

/-- Tokens that are known to end a text. -/
def stopTokens : List String :=
  ["</s>", "<|end_of_text|>", "<|eot_id|>", "<|im_end|>", "<|endoftext|>", "<|end|>", "<eos>",
    "<end_of_turn>", "<|eom_id|>", "<\uff5cend\u2581of\u2581sentence\uff5c>"]

/-! ## Order -/

/-- Lexicographic order of byte strings. -/
def bytesLe : Bytes → Bytes → Bool
  | [], _ => true
  | _ :: _, [] => false
  | a :: as, b :: bs => a < b || (a == b && bytesLe as bs)

/-- Closes the runs that a byte string does not continue: the runs that stay open, and the ends of
the others set to `i`. A run is open from the place of its first token on. -/
def closeRuns (entry : Nat → Bytes) (i : Nat) (bytes : Bytes) :
    List Nat → Array Nat → List Nat × Array Nat
  | [], ends => ([], ends)
  | top :: runs, ends =>
    if (entry top).isPrefixOf bytes then (top :: runs, ends)
    else closeRuns entry i bytes runs (ends.set! top i)

/-- Passes the byte string at a place: closes the runs that it does not continue, and opens its own. -/
def passEntry (entry : Nat → Bytes) (state : List Nat × Array Nat) (i : Nat) : List Nat × Array Nat :=
  let closed := closeRuns entry i (entry i) state.1 state.2
  (i :: closed.1, closed.2)

/-- For each place of a sorted list of byte strings, the first later place whose byte string does
not start with the one at the place. -/
def endsOfRuns (sorted : Array Bytes) : Array Nat :=
  let start : List Nat × Array Nat := ([], Array.replicate sorted.size sorted.size)
  ((List.range sorted.size).foldl (passEntry fun i => sorted.getD i []) start).2

end Vocabulary

open Vocabulary (Kind)

/-- The tokens of a language model. -/
structure Vocabulary where
  kind : Kind
  /-- The number of token ids; ids without a token string stand for nothing. -/
  size : Nat
  addsSpace : Bool
  /-- The token strings. -/
  tokens : Array String
  /-- The bytes of each id. -/
  bytes : Array Bytes
  stopIds : List Nat
  /-- The ids that stand for nothing, ascending. -/
  specialIds : Array Nat
  /-- The ids that can be matched, by their bytes. -/
  sortedIds : Array Nat
  /-- For each place in `sortedIds`, where the run of tokens that start with its bytes ends. -/
  runEnds : Array Nat
  deriving DecidableEq

namespace Vocabulary

/-- The ids that a list of ids leaves out, among the first `size`. -/
def idsOutside (size : Nat) (excluded : List Nat) : List Nat :=
  let marks := marksOf size excluded
  (List.range size).filter fun i => ! marks.getD i false

/-- The ids that end a text: the given ones, or else those of the known stop tokens. -/
def stopIdsOf (tokens : List String) (size : Nat) : Setting (List Nat) → Except Fault (List Nat)
  | .set ids =>
    match ids.find? (size ≤ ·) with
    | some id => .error (.stopOutOfRange id size)
    | none => .ok ids
  | .unset => .ok (tokens.zipIdx.filterMap fun (t, i) =>
      if stopTokens.contains t then some i else none)

/-- The ids of tokens without bytes that do not end a text. -/
def silentIdsOf (decoded : List Bytes) (stopIds : List Nat) : List Nat :=
  decoded.zipIdx.filterMap fun (bs, i) =>
    if bs.isEmpty && ! stopIds.contains i then some i else none

/-- The ids that stand for nothing: those of silent tokens, and those without a token. -/
def specialIdsOf (decoded : List Bytes) (size : Nat) (stopIds : List Nat) : List Nat :=
  silentIdsOf decoded stopIds ++ List.range' decoded.length (size - decoded.length)

/-- The vocabulary of tokens with their bytes. -/
def ofBytes (tokens : List String) (kind : Kind) (size : Nat) (addsSpace : Bool)
    (decoded : List Bytes) (stopIds : List Nat) : Vocabulary :=
  let specialIds := specialIdsOf decoded size stopIds
  let bytes := decoded.toArray ++ Array.replicate (size - decoded.length) []
  let entry := fun i => bytes.getD i []
  let sortedIds :=
    (idsOutside size (stopIds ++ specialIds)).mergeSort fun a b => bytesLe (entry a) (entry b)
  { kind, size, addsSpace
    tokens := tokens.toArray
    bytes := bytes
    stopIds := stopIds
    specialIds := specialIds.toArray
    sortedIds := sortedIds.toArray
    runEnds := endsOfRuns (sortedIds.map entry).toArray }

/-- The vocabulary of token strings. Without given stop ids the known stop tokens count. -/
def ofTokens (tokens : List String) (kind : Kind) (size : Option Nat) (stop : Setting (List Nat))
    (addsSpace : Bool) : Except Fault Vocabulary := do
  let count := tokens.length
  let size := size.getD count
  if size < count then throw (.sizeBelowTokens size count)
  let decoded ← tokens.mapM (tokenBytes kind)
  let stopIds ← stopIdsOf tokens size stop
  return ofBytes tokens kind size addsSpace decoded stopIds

/-- The bytes of a token; none for an id out of range. -/
def bytesOf (v : Vocabulary) (id : Nat) : Bytes := v.bytes.getD id []

/-- Whether an id is among ascending ids, from the place `lo` on and before the place `hi`. The id in the
middle tells which half to go on in. -/
def searchIds (ids : Array Nat) (id lo hi : Nat) : Bool :=
  if lo < hi then
    let mid := lo + (hi - lo) / 2
    let found := ids.getD mid 0
    if id < found then searchIds ids id lo mid
    else if found < id then searchIds ids id (mid + 1) hi
    else true
  else false
termination_by hi - lo

/-- Whether a token stands for nothing or is out of range. -/
def isSpecial (v : Vocabulary) (id : Nat) : Bool :=
  v.size ≤ id || searchIds v.specialIds id 0 v.specialIds.size

/-- What the masks of a vocabulary depend on. -/
structure Traits where
  kind : Kind
  size : Nat
  addsSpace : Bool
  stopIds : List Nat
  bytes : Array Bytes
  deriving DecidableEq

/-- What the masks of a vocabulary depend on, in the order in which it is hashed. -/
def traits (v : Vocabulary) : Traits := ⟨v.kind, v.size, v.addsSpace, v.stopIds, v.bytes⟩

/-- The number by which payloads tell vocabularies apart. The hash is not part of this library: any function
of the traits will do, and vocabularies with the same traits have the same number. -/
def fingerprint (hash : Traits → UInt64) (v : Vocabulary) : UInt64 := hash v.traits

end Vocabulary

end ConstrainedDecoding
