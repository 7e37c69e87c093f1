import ConstrainedDecoding.Regex.Pattern

/-!
# Patterns for ranges of whole numbers

Each pattern here is a list of items in sequence. It matches the decimal texts, without leading
zeros, of the numbers between two bounds; equal lengths are compared digit by digit from the left.
-/
namespace ConstrainedDecoding.Regex

/-- A digit as a character. -/
def digitChar (d : Nat) : Char := Char.ofNat (48 + d)

/-- The decimal digits of a number, most significant first. -/
def decimalDigits (n : Nat) : List Nat := (Nat.toDigits 10 n).map fun c => c.toNat - 48

/-- A digit between two digits. -/
def digitBetween (lo hi : Nat) : Pattern :=
  if lo = hi then .char (digitChar lo)
  else .set ⟨false, [(UInt32.ofNat (48 + lo), UInt32.ofNat (48 + hi))]⟩

/-- Any digit. -/
def anyDigit : Pattern := digitBetween 0 9

/-- Exactly `n` digits. -/
def anyDigits (n : Nat) : Pattern := .quantified anyDigit (.range n (some n))

/-- One of several sequences, in a group if there are several. -/
def oneOf : List (List Pattern) → List Pattern
  | [single] => single
  | several => [.group (.alternation (several.map .sequence))]

/-- The digit texts of one length between two of them. -/
def sameLength : List Nat → List Nat → List Pattern
  | [lo], hi :: _ => [digitBetween lo hi]
  | lo :: los, hi :: his =>
    let n := los.length
    if lo = hi then .char (digitChar lo) :: sameLength los his
    else if los.all (· = 0) ∧ his.all (· = 9) then [digitBetween lo hi, anyDigits n]
    else
      let first := .char (digitChar lo) :: sameLength los (List.replicate n 9)
      let last := .char (digitChar hi) :: sameLength (List.replicate n 0) his
      if lo + 1 < hi then oneOf [first, [digitBetween (lo + 1) (hi - 1), anyDigits n], last]
      else oneOf [first, last]
  | _, _ => []
termination_by los => los.length

/-- The numbers of `k` digits, for `k` more than one. -/
def ofLength (k : Nat) : List Pattern := [digitBetween 1 9, anyDigits (k - 1)]

/-- The natural numbers from `lo` to `hi`. -/
def naturalsBetween (lo hi : Nat) : List Pattern :=
  let ls := decimalDigits lo
  let hs := decimalDigits hi
  if ls.length = hs.length then sameLength ls hs
  else
    let between := (List.range' (ls.length + 1) (hs.length - ls.length - 1)).map ofLength
    oneOf (sameLength ls (List.replicate ls.length 9) :: between ++
      [sameLength (1 :: List.replicate (hs.length - 1) 0) hs])

/-- Any number of digits, written from one that is not zero, or a single zero. -/
def anyNatural : List Pattern :=
  [.group (.alternation
    [.sequence [.char '0'], .sequence [digitBetween 1 9, .quantified anyDigit .star]])]

/-- The natural numbers from `lo` on. -/
def naturalsFrom (lo : Nat) : List Pattern :=
  if lo = 0 then anyNatural
  else
    let ls := decimalDigits lo
    oneOf [sameLength ls (List.replicate ls.length 9),
      [digitBetween 1 9, .quantified anyDigit (.range ls.length none)]]

/-- A minus sign before a pattern. -/
def negative (items : List Pattern) : List Pattern := .char '-' :: items

/-- The integers between two bounds, each of which may be absent. -/
def integersBetween : Option Int → Option Int → List Pattern
  | none, none => .quantified (.char '-') .question :: anyNatural
  | some lo, some hi =>
    let below := if lo < 0 then
        [negative (naturalsBetween (if hi < 0 then hi.natAbs else 1) lo.natAbs)]
      else []
    let above := if 0 ≤ hi then [naturalsBetween (max lo 0).toNat hi.toNat] else []
    oneOf (below ++ above)
  | some lo, none =>
    if 0 ≤ lo then naturalsFrom lo.toNat
    else oneOf [negative (naturalsBetween 1 lo.natAbs), naturalsFrom 0]
  | none, some hi =>
    if 0 ≤ hi then
      oneOf [negative [digitBetween 1 9, .quantified anyDigit .star], naturalsBetween 0 hi.toNat]
    else negative (naturalsFrom hi.natAbs)

/-- A point and digits after it. -/
def fraction : List Pattern := [.char '.', .quantified anyDigit .plus]

/-- The alternatives for decimal texts without exponent between two whole bounds: whole numbers,
fractions above zero, fractions between minus one and zero, and fractions below. -/
def decimalsBetween (lo hi : Option Int) : List (List Pattern) :=
  let inOrder (a b : Option Int) : Bool :=
    match a, b with
    | some a, some b => a ≤ b
    | _, _ => true
  let whole := if inOrder lo hi then [integersBetween lo hi] else []
  let fromZero := (lo.map (max 0)).getD 0
  let above := hi.map (· - 1)
  let positive :=
    if inOrder (some fromZero) above then [integersBetween (some fromZero) above ++ fraction]
    else []
  let nearZero :=
    if inOrder lo (some (-1)) ∧ inOrder (some 0) hi then [.char '-' :: .char '0' :: fraction]
    else []
  let least := (hi.map fun h => max (-h) 1).getD 1
  let most := lo.map fun l => -l - 1
  let below :=
    if inOrder (some least) most then
      [negative (integersBetween (some least) most ++ fraction)]
    else []
  whole ++ positive ++ nearZero ++ below

end ConstrainedDecoding.Regex
