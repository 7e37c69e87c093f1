import ConstrainedDecoding.Grammar.Basic

/-!
# Paths of UTF-8 bytes

The UTF-8 forms of all code points between two of the same length, as a tree of byte ranges: a
range at the root of a branch is followed by any path of the branch. A character class becomes a
list of such trees.
-/
namespace ConstrainedDecoding

/-- Byte strings of one length. -/
inductive Utf8Paths
  /-- One byte of a range. -/
  | last (lo hi : UInt8)
  /-- A byte of the first range of a branch, then its paths. -/
  | branch (branches : List ((UInt8 × UInt8) × Utf8Paths))

namespace Utf8Paths

/-- The byte strings between two of the same length, given as the pairs of their bytes. After a
first byte inside its range, all continuation bytes may follow. -/
def between : List (UInt8 × UInt8) → Utf8Paths
  | [] => branch []
  | [(lo, hi)] => last lo hi
  | (lo, hi) :: rest =>
    if lo = hi then branch [((lo, lo), between rest)]
    else
      branch ([((lo, lo), between (rest.map fun p => (p.1, 0xBF)))] ++
        (if lo + 1 < hi then
          [((lo + 1, hi - 1), between (rest.map fun _ => (0x80, 0xBF)))]
        else []) ++
        [((hi, hi), between (rest.map fun p => (0x80, p.2)))])
termination_by pairs => pairs.length

/-- The code points whose UTF-8 forms have the same length, in five spans without surrogates. -/
def spans : List (Nat × Nat) :=
  [(0, 0x7F), (0x80, 0x7FF), (0x800, 0xD7FF), (0xE000, 0xFFFF), (0x10000, 0x10FFFF)]

/-- The UTF-8 form of a code point. -/
def bytesOf (n : Nat) : Bytes := String.utf8EncodeChar (Char.ofNat n)

/-- The UTF-8 forms of the characters in a range of code points. -/
def ofRange (lo hi : Nat) : List Utf8Paths :=
  spans.filterMap fun (least, most) =>
    let a := max lo least
    let b := min hi most
    if a ≤ b then some (between ((bytesOf a).zip (bytesOf b))) else none

end Utf8Paths

namespace CharClass

/-- The number after a number of 32 bits; the largest one has none and stays. -/
def after (n : Nat) : Nat := min (n + 1) 0xFFFFFFFF

/-- Merges ranges that overlap or touch, given in the order of their starts. -/
def mergeRanges : List (Nat × Nat) → List (Nat × Nat)
  | [] => []
  | [r] => [r]
  | (lo, hi) :: (lo', hi') :: rest =>
    if lo' ≤ after hi then mergeRanges ((lo, max hi hi') :: rest)
    else (lo, hi) :: mergeRanges ((lo', hi') :: rest)
termination_by ranges => ranges.length

/-- What ranges leave out from `next` on, up to the last code point. -/
def gaps (next : Nat) : List (Nat × Nat) → List (Nat × Nat)
  | [] => if next ≤ 0x10FFFF then [(next, 0x10FFFF)] else []
  | (lo, hi) :: rest =>
    (if next < lo then [(next, lo - 1)] else []) ++ gaps (max next (after hi)) rest

/-- The ranges of code points in a class. -/
def codePoints (set : CharClass) : List (Nat × Nat) :=
  let ranges := set.ranges.map fun (lo, hi) => (lo.toNat, hi.toNat)
  if set.negated then gaps 0 (mergeRanges (ranges.mergeSort fun a b => a.1 ≤ b.1)) else ranges

/-- The UTF-8 forms of the characters of a class. -/
def utf8Paths (set : CharClass) : List Utf8Paths :=
  set.codePoints.flatMap fun (lo, hi) => Utf8Paths.ofRange lo hi

end CharClass

end ConstrainedDecoding
