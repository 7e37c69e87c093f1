import ConstrainedDecoding.Text.Hexadecimal

/-!
# Faults of grammar texts

A fault is found while the text is cut into tokens or while the tokens are read as rules. It names
the line and the column where it was found, both from 1, with columns counted in bytes.
-/
namespace ConstrainedDecoding.Ebnf

/-- A place in a text. -/
structure Position where
  line : Nat
  column : Nat
  deriving DecidableEq

namespace Position

/-- The first place of a text. -/
def start : Position := ⟨1, 1⟩

/-- The place `bytes` further on the same line. -/
def right (p : Position) (bytes : Nat) : Position := ⟨p.line, p.column + bytes⟩

/-- The place after a character. A line feed ends a line, and so does a carriage return without a
line feed after it. -/
def after (p : Position) (c : Char) (next : Option Char) : Position :=
  if c = '\n' ∨ (c = '\r' ∧ next ≠ some '\n') then ⟨p.line + 1, 1⟩ else p.right c.utf8Size

end Position

/-- How an escape is introduced. -/
inductive EscapeKind
  | x | u | longU
  deriving DecidableEq

def EscapeKind.text : EscapeKind → String
  | .x => "\\x"
  | .u => "\\u"
  | .longU => "\\U"

/-- What keeps a text from being cut into tokens. -/
inductive TokenFault
  | colon
  | unexpected (byte : UInt8)
  | unterminatedLiteral
  | unterminatedClass
  | newlineInClass
  | codePoint (value : Nat)
  | integerTooLarge
  | loneBackslash
  | noHexDigits
  | fewHexDigits (kind : EscapeKind) (digits : Nat)
  | badHexDigit (kind : EscapeKind)
  | unknownEscape (byte : UInt8)
  deriving DecidableEq

/-- A byte shown as the character with its number. -/
def byteText (b : UInt8) : String := (Char.ofNat b.toNat).toString

def TokenFault.message : TokenFault → String
  | .colon => "unexpected character ':'"
  | .unexpected b => "unexpected character: '" ++ byteText b ++ "'"
  | .unterminatedLiteral => "unterminated string literal"
  | .unterminatedClass => "unterminated character class"
  | .newlineInClass => "character class should not contain newline"
  | .codePoint n => "invalid codepoint: U+" ++ Text.hexUpper 4 n
  | .integerTooLarge => "integer too large"
  | .loneBackslash => "expected escape sequence"
  | .noHexDigits => "invalid \\x escape: no hex digits"
  | .fewHexDigits kind digits => s!"invalid {kind.text} escape: need {digits} hex digits"
  | .badHexDigit kind => s!"invalid hex digit in {kind.text} escape"
  | .unknownEscape b => "invalid escape sequence: \\" ++ byteText b

/-- What keeps tokens from being read as rules. -/
inductive RuleFault
  | assignFirst
  | assignAfterNoName
  | nameWithinLine
  | definedTwice (name : String)
  | undefined (name : String)
  | expectedElement (found : String)
  | expectedRuleName
  | expectedAssign
  | expectedClose
  | expectedInteger
  | expectedBoundEnd
  | expectedBrace
  | boundTooLarge
  | boundsOrder
  | classOrder
  deriving DecidableEq

def RuleFault.message : RuleFault → String
  | .assignFirst => "::= should not be the first token"
  | .assignAfterNoName => "::= should be preceded by an identifier"
  | .nameWithinLine => "rule name should be at the beginning of the line"
  | .definedTwice name => s!"rule \"{name}\" defined multiple times"
  | .undefined name => s!"rule \"{name}\" is not defined"
  | .expectedElement found => s!"expected element, got {found}"
  | .expectedRuleName => "expected rule name"
  | .expectedAssign => "expected ::="
  | .expectedClose => "expected )"
  | .expectedInteger => "expected integer"
  | .expectedBoundEnd => "expected ',' or '\x7d' in repetition range"
  | .expectedBrace => "expected \x7d"
  | .boundTooLarge => "repetition bound too large"
  | .boundsOrder => "lower bound is larger than upper bound"
  | .classOrder => "invalid character class: lower bound > upper bound"

/-- What keeps a text from being a grammar. -/
inductive Fault
  | token (at_ : Position) (cause : TokenFault)
  | rule (at_ : Position) (cause : RuleFault)
  | rootNotFound (name : String)
  deriving DecidableEq

def Fault.message : Fault → String
  | .token p cause =>
    s!"EBNF lexer error at line {p.line}, column {p.column}: {cause.message}"
  | .rule p cause =>
    s!"EBNF parser error at line {p.line}, column {p.column}: {cause.message}"
  | .rootNotFound name => s!"EBNF parser error: root rule \"{name}\" not found"

end ConstrainedDecoding.Ebnf
