import ConstrainedDecoding.Json.Value
import ConstrainedDecoding.Text.Hexadecimal

/-!
# JSON text

Values are written without blanks. A double has the fewest digits that read back; it is positional
while its scientific exponent lies between −5 and 15, with at least one digit after the point, and
scientific with a signed exponent otherwise.
-/
namespace ConstrainedDecoding.Json

/-- The decisions of the number format: the scientific exponents that are written positionally. -/
structure NumberFormat where
  leastPositional : Int
  greatestPositional : Int

/-- Exponents from −5 to 15 are positional. -/
def numberFormat : NumberFormat := ⟨-5, 15⟩

/-- Decimal digits with a point after the first `whole` of them, filled with zeros. -/
def positional (digits : String) (whole : Int) : String :=
  if whole ≤ 0 then
    "0." ++ String.ofList (List.replicate (-whole).toNat '0') ++ digits
  else if (digits.length : Int) ≤ whole then
    digits ++ String.ofList (List.replicate (whole.toNat - digits.length) '0') ++ ".0"
  else
    String.ofList (digits.toList.take whole.toNat) ++ "." ++
      String.ofList (digits.toList.drop whole.toNat)

/-- One digit, a point and the rest if there is a rest, and a signed exponent. -/
def scientific (digits : String) (exponent : Int) : String :=
  let body := match digits.toList with
    | [] => ""
    | [d] => d.toString
    | d :: rest => d.toString ++ "." ++ String.ofList rest
  body ++ "e" ++ (if exponent < 0 then "-" else "+") ++ toString exponent.natAbs

/-- The text of a double's magnitude. -/
def magnitudeText (x : Magnitude) : String :=
  if x.isZero then "0.0"
  else
    let (n, place) := FloatFormat.binary64.shortest x
    let digits := toString n
    let exponent := place + digits.length - 1
    if numberFormat.leastPositional ≤ exponent ∧ exponent ≤ numberFormat.greatestPositional then
      positional digits (exponent + 1)
    else scientific digits exponent

/-- The text of a number. -/
def Number.text : Number → String
  | .int value => toString value
  | .double negative x => (if negative then "-" else "") ++ magnitudeText x

/-- A character as it stands inside a JSON string. -/
def stringChar (c : Char) : String :=
  if c = '"' then "\\\""
  else if c = '\\' then "\\\\"
  else if c = '\x08' then "\\b"
  else if c = '\x0c' then "\\f"
  else if c = '\n' then "\\n"
  else if c = '\r' then "\\r"
  else if c = '\t' then "\\t"
  else if c.toNat < 0x20 then "\\u" ++ Text.hex 4 c.toNat
  else c.toString

/-- A text as a JSON string. -/
def stringText (s : String) : String :=
  "\"" ++ s.foldl (fun out c => out ++ stringChar c) "" ++ "\""

mutual

/-- The text of a value, without blanks. -/
def Value.text : Value → String
  | .null => "null"
  | .bool true => "true"
  | .bool false => "false"
  | .number n => n.text
  | .string s => stringText s
  | .array items => "[" ++ itemsText true items ++ "]"
  | .object members => "\x7b" ++ membersText true members ++ "\x7d"

/-- The items of an array with their commas; `first` tells that no item stands before. -/
def itemsText (first : Bool) : List Value → String
  | [] => ""
  | v :: rest => (if first then "" else ",") ++ v.text ++ itemsText false rest

/-- The members of an object with their commas. -/
def membersText (first : Bool) : List (String × Value) → String
  | [] => ""
  | (k, v) :: rest =>
    (if first then "" else ",") ++ stringText k ++ ":" ++ v.text ++ membersText false rest

end

end ConstrainedDecoding.Json
