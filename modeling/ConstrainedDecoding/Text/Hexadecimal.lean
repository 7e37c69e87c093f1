/-!
# Hexadecimal numbers

Digits of either case are read; they are written in one case, filled with zeros to a width.
-/
namespace ConstrainedDecoding.Text

/-- The value of a hexadecimal digit. -/
def hexValue? (c : Char) : Option Nat :=
  if '0' ≤ c ∧ c ≤ '9' then some (c.toNat - 48)
  else if 'a' ≤ c ∧ c ≤ 'f' then some (c.toNat - 87)
  else if 'A' ≤ c ∧ c ≤ 'F' then some (c.toNat - 55)
  else none

/-- Whether a character is a hexadecimal digit. -/
def isHex (c : Char) : Bool := (hexValue? c).isSome

/-- The number that hexadecimal digits spell; other characters count as zero. -/
def hexNumber (cs : List Char) : Nat := cs.foldl (fun n c => n * 16 + (hexValue? c).getD 0) 0

/-- The hexadecimal digits of a number, lower case, filled with zeros to `width`. -/
def hex (width n : Nat) : String :=
  let digits := Nat.toDigits 16 n
  String.ofList (List.replicate (width - digits.length) '0' ++ digits)

/-- The hexadecimal digits of a number, upper case, filled with zeros to `width`. -/
def hexUpper (width n : Nat) : String := (hex width n).toUpper

end ConstrainedDecoding.Text
