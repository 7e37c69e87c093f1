/-!
# Binary floating-point magnitudes

A finite magnitude of a binary format is `mantissa · 2 ^ exponent`, kept in the one form that has
either the full precision or the least exponent. Rounding a quotient of natural numbers is exact
arithmetic, to nearest with ties to even, and answers `none` on overflow. Shortest decimal digits
are found by trying ever finer decimal grids.
-/
namespace ConstrainedDecoding

/-- A binary format: bits of precision and the range of exponents of its last place. -/
structure FloatFormat where
  precision : Nat
  leastExponent : Int
  greatestExponent : Int
  deriving DecidableEq

/-- The format of 64 bits. -/
def FloatFormat.binary64 : FloatFormat := ⟨53, -1074, 971⟩

/-- The format of 32 bits. -/
def FloatFormat.binary32 : FloatFormat := ⟨24, -149, 104⟩

/-- The magnitude `mantissa · 2 ^ exponent`. -/
structure Magnitude where
  mantissa : Nat
  exponent : Int
  deriving DecidableEq

namespace Magnitude

/-- The magnitude as a quotient of natural numbers. -/
def toRatio (x : Magnitude) : Nat × Nat :=
  if 0 ≤ x.exponent then (x.mantissa * Nat.pow 2 x.exponent.toNat, 1)
  else (x.mantissa, Nat.pow 2 (-x.exponent).toNat)

def isZero (x : Magnitude) : Bool := x.mantissa == 0

/-- The greatest natural number that is not above the magnitude. -/
def floor (x : Magnitude) : Nat := x.toRatio.1 / x.toRatio.2

/-- The least natural number that is not below the magnitude. -/
def ceil (x : Magnitude) : Nat := (x.toRatio.1 + x.toRatio.2 - 1) / x.toRatio.2

end Magnitude

/-- The natural number nearest to `num / den`; a half goes to the even neighbour. -/
def roundHalfEven (num den : Nat) : Nat :=
  let q := num / den
  let twice := 2 * (num % den)
  if twice < den then q
  else if den < twice then q + 1
  else if q % 2 = 0 then q else q + 1

namespace FloatFormat

/-- `num / (den · 2 ^ e)` as a quotient of natural numbers. -/
def scaled (num den : Nat) (e : Int) : Nat × Nat :=
  if 0 ≤ e then (num, den * Nat.pow 2 e.toNat) else (num * Nat.pow 2 (-e).toNat, den)

/-- The exponent of the last place in which `num / den` is represented. -/
def lastPlace (f : FloatFormat) (num den : Nat) : Int :=
  let guess : Int := (Nat.log2 num : Int) - (Nat.log2 den : Int) - (f.precision - 1 : Nat)
  let (n, d) := scaled num den guess
  max f.leastExponent (if n / d < Nat.pow 2 (f.precision - 1) then guess - 1 else guess)

/-- The magnitude of the format nearest to `num / den`, or `none` if that is too large. -/
def round? (f : FloatFormat) (num den : Nat) : Option Magnitude :=
  if num = 0 then some ⟨0, f.leastExponent⟩
  else
    let e := f.lastPlace num den
    let (n, d) := scaled num den e
    let m := roundHalfEven n d
    let (m, e) := if m = Nat.pow 2 f.precision then (Nat.pow 2 (f.precision - 1), e + 1) else (m, e)
    if f.greatestExponent < e then none else some ⟨m, e⟩

/-- The format's product. -/
def mul? (f : FloatFormat) (x y : Magnitude) : Option Magnitude :=
  let (a, b) := x.toRatio
  let (c, d) := y.toRatio
  f.round? (a * c) (b * d)

/-- The format's quotient, for a divisor that is not zero. -/
def div? (f : FloatFormat) (x y : Magnitude) : Option Magnitude :=
  let (a, b) := x.toRatio
  let (c, d) := y.toRatio
  f.round? (a * d) (b * c)

/-- Twice the bounds of the values that round to `x`, over a common denominator: the magnitude
itself, the lower bound and the upper bound, each doubled twice so that all are whole. -/
def neighbourhood (f : FloatFormat) (x : Magnitude) : Nat × Nat × Nat × Nat :=
  let (unit, den) := (Magnitude.mk 1 x.exponent).toRatio
  let atBoundary := x.mantissa = Nat.pow 2 (f.precision - 1) ∧ f.leastExponent < x.exponent
  let below := if atBoundary then 1 else 2
  (4 * x.mantissa * unit, 4 * x.mantissa * unit - below * unit, 4 * x.mantissa * unit + 2 * unit,
    4 * den)

/-- The decimal exponent of the first digit of a positive `num / den`. -/
def leadingPlace (num den : Nat) : Int :=
  let shift : Nat := 400
  (Nat.toDigits 10 (num * Nat.pow 10 shift / den)).length - 1 - (shift : Int)

/-- The multiple of `10 ^ place` nearest to a positive magnitude among those that round to it, if
there is one, counted in units of `10 ^ place`; an exact tie goes to the even one. -/
def decimalAt? (f : FloatFormat) (x : Magnitude) (place : Int) : Option Nat :=
  let (value, low, high, den) := f.neighbourhood x
  let up := if 0 ≤ place then 1 else Nat.pow 10 (-place).toNat
  let down := if 0 ≤ place then Nat.pow 10 place.toNat else 1
  let (value, low, high, unit) := (value * up, low * up, high * up, den * down)
  let lower := value / unit
  let inside (n : Nat) : Bool :=
    if x.mantissa % 2 = 0 then low ≤ n * unit && n * unit ≤ high
    else low < n * unit && n * unit < high
  match inside lower && lower != 0, inside (lower + 1) with
  | true, true =>
    let fromLower := value - lower * unit
    let toUpper := (lower + 1) * unit - value
    some (if fromLower < toUpper then lower
      else if toUpper < fromLower then lower + 1
      else if lower % 2 = 0 then lower else lower + 1)
  | true, false => some lower
  | false, true => some (lower + 1)
  | false, false => none

/-- Drops the zeros at the end of a decimal, moving its place up. -/
def dropZeros : Nat → Nat → Int → Nat × Int
  | 0, n, place => (n, place)
  | fuel + 1, n, place =>
    if n ≠ 0 ∧ n % 10 = 0 then dropZeros fuel (n / 10) (place + 1) else (n, place)

/-- Tries the grids at `place` and at the finer places below it. -/
def shortestFrom (f : FloatFormat) (x : Magnitude) : Nat → Int → Nat × Int
  | 0, place => ((f.decimalAt? x place).getD 0, place)
  | finer + 1, place =>
    match f.decimalAt? x place with
    | some n => (n, place)
    | none => shortestFrom f x finer (place - 1)

/-- The shortest decimal `n · 10 ^ place` that rounds to a magnitude, the nearest of those, with
no zero at the end of `n`. Seventeen digits suffice for every format here. -/
def shortest (f : FloatFormat) (x : Magnitude) : Nat × Int :=
  if x.mantissa = 0 then (0, 0)
  else
    let (num, den) := x.toRatio
    let (n, place) := shortestFrom f x 17 (leadingPlace num den)
    dropZeros 20 n place

end FloatFormat

end ConstrainedDecoding
