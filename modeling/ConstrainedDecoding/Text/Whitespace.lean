/-!
# White space

The characters that Unicode calls white space, and texts without the white space at their ends.
-/
namespace ConstrainedDecoding.Text

/-- The inclusive ranges of the property `White_Space`. -/
def whitespaceRanges : List (Nat × Nat) :=
  [(0x9, 0xd), (0x20, 0x20), (0x85, 0x85), (0xa0, 0xa0), (0x1680, 0x1680), (0x2000, 0x200a),
    (0x2028, 0x2029), (0x202f, 0x202f), (0x205f, 0x205f), (0x3000, 0x3000)]

/-- Whether a character is white space. -/
def isWhitespace (c : Char) : Bool :=
  whitespaceRanges.any fun (lo, hi) => lo ≤ c.toNat && c.toNat ≤ hi

/-- A text without the white space at its end. -/
def trimEnd (s : String) : String :=
  String.ofList (s.toList.reverse.dropWhile isWhitespace).reverse

/-- A text without the white space at its ends. -/
def trim (s : String) : String := String.ofList ((trimEnd s).toList.dropWhile isWhitespace)

end ConstrainedDecoding.Text
