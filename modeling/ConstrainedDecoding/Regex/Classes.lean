import ConstrainedDecoding.Grammar.Basic

/-!
# Named character classes of patterns
-/
namespace ConstrainedDecoding.Regex

/-- Inclusive, ascending ranges of code points. -/
abbrev Ranges := List (UInt32 × UInt32)

/-- `\d`. -/
def digitRanges : Ranges := [(0x30, 0x39)]

/-- `\w`. -/
def wordRanges : Ranges := [(0x30, 0x39), (0x41, 0x5a), (0x5f, 0x5f), (0x61, 0x7a)]

/-- `\s`. -/
def spaceRanges : Ranges :=
  [(0x09, 0x0d), (0x20, 0x20), (0xa0, 0xa0), (0x2028, 0x2029), (0xfeff, 0xfeff)]

/-- What `.` leaves out. -/
def lineBreakRanges : Ranges := [(0x0a, 0x0a), (0x0d, 0x0d), (0x2028, 0x2029)]

/-- The ranges between ascending ranges, from `next` to the end of Unicode. -/
def gaps (next : UInt32) : Ranges → Ranges
  | [] => if next ≤ 0x10ffff then [(next, 0x10ffff)] else []
  | (lo, hi) :: rest =>
    if next < lo then (next, lo - 1) :: gaps (hi + 1) rest else gaps (hi + 1) rest

/-- The code points outside ascending ranges. -/
def complement (rs : Ranges) : Ranges := gaps 0 rs

end ConstrainedDecoding.Regex
