import ConstrainedDecoding.Json.Printer

/-!
# Logits

A logit is a number of 32 bits. It is written with the fewest digits that read back, never with an
exponent, and without a point if it is whole.
-/
namespace ConstrainedDecoding

/-- A 32-bit number with its sign. -/
inductive Logit
  | finite (negative : Bool) (magnitude : Magnitude)
  | infinite (negative : Bool)
  deriving DecidableEq

namespace Logit

/-- The logit nearest to a JSON number. -/
def ofNumber (n : Json.Number) : Logit :=
  let round (negative : Bool) (m : Magnitude) : Logit :=
    match FloatFormat.binary32.round? m.toRatio.1 m.toRatio.2 with
    | some m => finite negative m
    | none => infinite negative
  match n with
  | .double negative m => round negative m
  | .int i =>
    match FloatFormat.binary64.round? i.natAbs 1 with
    | some m => round (i < 0) m
    | none => infinite (i < 0)

/-- The value of a rejected token. -/
def rejected : Logit := infinite true

/-- The text of a magnitude without an exponent. -/
def magnitudeText (m : Magnitude) : String :=
  if m.isZero then "0"
  else
    let (n, place) := FloatFormat.binary32.shortest m
    let digits := toString n
    if 0 ≤ place then digits ++ String.ofList (List.replicate place.toNat '0')
    else Json.positional digits (place + digits.length)

def text : Logit → String
  | finite negative m => (if negative then "-" else "") ++ magnitudeText m
  | infinite negative => (if negative then "-" else "") ++ "inf"

end Logit

end ConstrainedDecoding
