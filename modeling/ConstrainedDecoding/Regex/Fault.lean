import ConstrainedDecoding.Text.Hexadecimal

/-!
# Faults of patterns

A position counts the characters of the pattern from zero.
-/
namespace ConstrainedDecoding.Regex

/-- What keeps a text from being a pattern, or uses what patterns here do not offer. -/
inductive Fault
  | unexpectedEnd
  | expected (c : Char) (position : Nat)
  | unmatchedClose (position : Nat)
  | unmatchedOpen (position : Nat)
  | consecutiveQuantifiers (position : Nat)
  | nothingToRepeat (c : Char) (position : Nat)
  | innerAnchor (c : Char) (position : Nat)
  | lookbehind
  | lookahead
  | unterminatedName
  | groupModifier (c : Char)
  | unclosedClass
  | shorthandEndsRange
  | rangeOrder (position : Nat)
  | unicodeProperty
  | wordBoundary
  | backreference
  | badBracedDigit (c : Char)
  | outOfUnicode
  | emptyBraces
  | codePoint (n : Nat)
  | quantifierOrder (least most : Nat)
  | countTooLarge
  | expectedCount (position : Nat)
  | badHexDigit (c : Char)
  deriving DecidableEq

def Fault.message : Fault → String
  | .unexpectedEnd => "unexpected end of pattern"
  | .expected c p => s!"expected '{c}' at position {p}"
  | .unmatchedClose p => s!"unmatched ')' at position {p}"
  | .unmatchedOpen p => s!"unmatched '(' before position {p}"
  | .consecutiveQuantifiers p => s!"consecutive quantifiers at position {p}"
  | .nothingToRepeat c p => s!"nothing to repeat before '{c}' at position {p}"
  | .innerAnchor c p => s!"anchor '{c}' at position {p} is only supported at the ends"
  | .lookbehind => "lookbehind assertions are not supported"
  | .lookahead => "lookahead assertions are not supported"
  | .unterminatedName => "unterminated group name"
  | .groupModifier c => s!"unsupported group modifier '?{c}'"
  | .unclosedClass => "unclosed character class"
  | .shorthandEndsRange => "character class shorthand cannot end a range"
  | .rangeOrder p => s!"range out of order in character class at position {p}"
  | .unicodeProperty => "unicode property escapes (\\p, \\P) are not supported"
  | .wordBoundary => "word boundaries (\\b, \\B) are not supported"
  | .backreference => "backreferences are not supported"
  | .badBracedDigit c => s!"invalid hex digit '{c}' in \\u\x7b...\x7d"
  | .outOfUnicode => "\\u\x7b...\x7d escape is out of the Unicode range"
  | .emptyBraces => "empty \\u\x7b\x7d escape"
  | .codePoint n => "invalid codepoint U+" ++ Text.hexUpper 4 n
  | .quantifierOrder least most => s!"numbers out of order in \x7b{least},{most}\x7d quantifier"
  | .countTooLarge => "repetition count too large"
  | .expectedCount p => s!"expected integer in repetition at position {p}"
  | .badHexDigit c => s!"expected hex digit, found '{c}'"

end ConstrainedDecoding.Regex
