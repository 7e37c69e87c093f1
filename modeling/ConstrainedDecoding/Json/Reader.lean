import ConstrainedDecoding.Json.Value
import ConstrainedDecoding.Text.Hexadecimal

/-!
# Reading JSON

The reader takes RFC 8259 texts with fewer than 128 nested containers. A number without fraction
and exponent that fits 64 bits is a whole number, except `-0`. Any other number is a double: its
leading digits, as many as fit 64 bits, are rounded to a double, which is then multiplied or
divided by a power of ten that is itself rounded to a double. A number beyond the greatest double
is refused.
-/
namespace ConstrainedDecoding.Json

/-- The blanks that may stand between the parts of a JSON text. -/
def isBlank (c : Char) : Bool := c = ' ' || c = '\n' || c = '\t' || c = '\r'

def skipBlanks (s : List Char) : List Char := s.dropWhile isBlank

/-! ## Numbers -/

/-- The digits at the start of a text, as numbers, and what follows them. -/
def digits (s : List Char) : List Nat × List Char :=
  ((s.takeWhile Char.isDigit).map fun c => c.toNat - 48, s.dropWhile Char.isDigit)

/-- The number that decimal digits spell. -/
def decimal (ds : List Nat) : Nat := ds.foldl (fun n d => n * 10 + d) 0

/-- The parts of a number text. -/
structure NumberParts where
  negative : Bool
  whole : List Nat
  fraction : Option (List Nat)
  exponent : Option Int

/-- Splits a number text into its parts: no plus sign, no leading zero, digits on both sides of
the point and after the exponent mark. -/
def numberParts? (s : List Char) : Option (NumberParts × List Char) :=
  let (negative, s) := match s with
    | '-' :: rest => (true, rest)
    | s => (false, s)
  let (whole, s) := digits s
  if whole = [] ∨ (whole.head? = some 0 ∧ whole.length ≠ 1) then none
  else
    let point : Option (Option (List Nat) × List Char) := match s with
      | '.' :: rest =>
        let (fraction, rest) := digits rest
        if fraction = [] then none else some (some fraction, rest)
      | s => some (none, s)
    match point with
    | none => none
    | some (fraction, s) =>
      let exponent (s : List Char) : Option (Int × List Char) :=
        let (sign, s) : Int × List Char := match s with
          | '+' :: rest => (1, rest)
          | '-' :: rest => (-1, rest)
          | s => (1, s)
        let (ds, s) := digits s
        if ds = [] then none else some (sign * (decimal ds : Int), s)
      match s with
      | 'e' :: rest | 'E' :: rest =>
        (exponent rest).map fun (e, s) => (⟨negative, whole, fraction, some e⟩, s)
      | s => some (⟨negative, whole, fraction, none⟩, s)

/-- Appends digits to a significand while it fits 64 bits; answers the significand, the number of
digits that were appended and the number of those left over. -/
def appendDigits (significand : Nat) : List Nat → Nat × Nat × Nat
  | [] => (significand, 0, 0)
  | d :: ds =>
    if 0x10000000000000000 ≤ significand * 10 + d then (significand, 0, ds.length + 1)
    else
      let (n, used, left) := appendDigits (significand * 10 + d) ds
      (n, used + 1, left)

/-- Divides by the double `10 ^ 308` and brings the exponent nearer to zero until it is at least
`-308` or nothing is left. -/
def lowerScale : Nat → Magnitude → Int → Magnitude × Int
  | 0, x, e => (x, e)
  | fuel + 1, x, e =>
    if e < -308 ∧ ¬ x.isZero then
      let scale := (FloatFormat.binary64.round? (Nat.pow 10 308) 1).getD ⟨1, 0⟩
      lowerScale fuel ((FloatFormat.binary64.div? x scale).getD x) (e + 308)
    else (x, e)

/-- `significand · 10 ^ exponent` in double arithmetic, or `none` if it overflows. -/
def scaledMagnitude? (significand : Nat) (exponent : Int) : Option Magnitude := do
  let x ← FloatFormat.binary64.round? significand 1
  if x.isZero then some x
  else if 308 < exponent then none
  else if 0 ≤ exponent then
    FloatFormat.binary64.mul? x (← FloatFormat.binary64.round? (Nat.pow 10 exponent.toNat) 1)
  else
    let (x, e) := lowerScale 4 x exponent
    if x.isZero ∨ e < -308 then FloatFormat.binary64.round? 0 1
    else FloatFormat.binary64.div? x (← FloatFormat.binary64.round? (Nat.pow 10 (-e).toNat) 1)

/-- The number that the parts spell. -/
def NumberParts.number? (p : NumberParts) : Option Number :=
  let (n, _, left) := appendDigits 0 p.whole
  match p.fraction, p.exponent with
  | none, none =>
    if left = 0 ∧ ¬ p.negative then some (.int n)
    else if left = 0 ∧ 0 < n ∧ n ≤ 0x8000000000000000 then some (.int (-(n : Int)))
    else (scaledMagnitude? n left).map (.double p.negative)
  | fraction, exponent =>
    let (n, used, _) := appendDigits n (fraction.getD [])
    (scaledMagnitude? n ((left : Int) - used + exponent.getD 0)).map (.double p.negative)

/-! ## Strings -/

/-- The number that four hexadecimal digits spell. -/
def hexQuad? (a b c d : Char) : Option Nat :=
  if [a, b, c, d].all Text.isHex then some (Text.hexNumber [a, b, c, d]) else none

/-- The character that a short escape stands for. -/
def shortEscape? (c : Char) : Option Char :=
  if c = '"' ∨ c = '\\' ∨ c = '/' then some c
  else if c = 'b' then some '\x08'
  else if c = 'f' then some '\x0c'
  else if c = 'n' then some '\n'
  else if c = 'r' then some '\r'
  else if c = 't' then some '\t'
  else none

/-- The character of a pair of surrogates. -/
def surrogatePair? (high low : Nat) : Option Char :=
  if 0xDC00 ≤ low ∧ low ≤ 0xDFFF then
    some (Char.ofNat (0x10000 + (high - 0xD800) * 0x400 + (low - 0xDC00)))
  else none

/-- Reads a string after its opening quote; `done` holds the characters read, last first. -/
def readString (done : List Char) : List Char → Option (String × List Char)
  | [] => none
  | '"' :: rest => some (String.ofList done.reverse, rest)
  | '\\' :: 'u' :: a :: b :: c :: d :: rest =>
    match hexQuad? a b c d with
    | none => none
    | some n =>
      if 0xD800 ≤ n ∧ n ≤ 0xDBFF then
        match rest with
        | '\\' :: 'u' :: a :: b :: c :: d :: rest =>
          match (hexQuad? a b c d).bind (surrogatePair? n) with
          | none => none
          | some ch => readString (ch :: done) rest
        | _ => none
      else if 0xDC00 ≤ n ∧ n ≤ 0xDFFF then none
      else readString (Char.ofNat n :: done) rest
  | '\\' :: c :: rest =>
    match shortEscape? c with
    | none => none
    | some ch => readString (ch :: done) rest
  | c :: rest => if c.toNat < 0x20 then none else readString (c :: done) rest

/-! ## Values -/

mutual

/-- Reads a value that stands at the start of a text. `depth` containers may still be opened, and
`fuel` exceeds the length of the text. -/
def readValue (depth : Nat) : Nat → List Char → Option (Value × List Char)
  | 0, _ => none
  | fuel + 1, s =>
    match s with
    | 'n' :: 'u' :: 'l' :: 'l' :: rest => some (.null, rest)
    | 't' :: 'r' :: 'u' :: 'e' :: rest => some (.bool true, rest)
    | 'f' :: 'a' :: 'l' :: 's' :: 'e' :: rest => some (.bool false, rest)
    | '"' :: rest => (readString [] rest).map fun (s, rest) => (.string s, rest)
    | '[' :: rest =>
      if depth = 0 then none
      else
        match skipBlanks rest with
        | ']' :: rest => some (.array [], rest)
        | rest => readItems (depth - 1) fuel [] rest
    | '{' :: rest =>
      if depth = 0 then none
      else
        match skipBlanks rest with
        | '}' :: rest => some (.object [], rest)
        | rest => readMembers (depth - 1) fuel [] rest
    | s => do
      let (parts, rest) ← numberParts? s
      some (.number (← parts.number?), rest)

/-- Reads the items of an array from its next item on; `done` holds the items read, last first. -/
def readItems (depth : Nat) : Nat → List Value → List Char → Option (Value × List Char)
  | 0, _, _ => none
  | fuel + 1, done, s =>
    match readValue depth fuel s with
    | none => none
    | some (v, rest) =>
      match skipBlanks rest with
      | ',' :: rest => readItems depth fuel (v :: done) (skipBlanks rest)
      | ']' :: rest => some (.array (v :: done).reverse, rest)
      | _ => none

/-- Reads the members of an object from its next key on; `done` holds the members read. -/
def readMembers (depth : Nat) : Nat → List (String × Value) → List Char →
    Option (Value × List Char)
  | 0, _, _ => none
  | fuel + 1, done, s =>
    match s with
    | '"' :: rest =>
      match readString [] rest with
      | none => none
      | some (key, rest) =>
        match skipBlanks rest with
        | ':' :: rest =>
          match readValue depth fuel (skipBlanks rest) with
          | none => none
          | some (v, rest) =>
            let done := Value.insert key v done
            match skipBlanks rest with
            | ',' :: rest => readMembers depth fuel done (skipBlanks rest)
            | '}' :: rest => some (.object done, rest)
            | _ => none
        | _ => none
    | _ => none

end

/-- The greatest number of containers that may be open at once. -/
def depthLimit : Nat := 127

/-- The value that a whole text spells. -/
def parse? (text : String) : Option Value :=
  let s := text.toList
  match readValue depthLimit (s.length + 1) (skipBlanks s) with
  | some (v, rest) => if (skipBlanks rest).isEmpty then some v else none
  | none => none

end ConstrainedDecoding.Json
