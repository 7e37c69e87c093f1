import ConstrainedDecoding.Ebnf.Fault

/-!
# Tokens of grammar texts

A bracketed class is one token that keeps its members in the order in which they stand, with a dash
as a member of its own; which members form ranges is decided when rules are read.
-/
namespace ConstrainedDecoding.Ebnf

/-- A thing that stands at a place of the text. -/
structure Located (α : Type) where
  position : Position
  value : α
  deriving DecidableEq

/-- A member of a bracketed class. -/
inductive ClassMember
  | code (n : UInt32)
  | dash
  deriving DecidableEq

/-- The code point of a member. -/
def ClassMember.codePoint : ClassMember → UInt32
  | .code n => n
  | .dash => 0x2d

/-- A token. -/
inductive Token
  /-- A name right before `::=`. -/
  | ruleName (name : String)
  | identifier (name : String)
  | literal (text : String)
  /-- A bracketed class, with the place of its closing bracket. -/
  | charClass (negated : Bool) (members : List (Located ClassMember)) (close : Position)
  | assign
  | leftParen
  | rightParen
  | leftBrace
  | rightBrace
  | pipe
  | star
  | plus
  | question
  /-- The opening `(=` of a lookahead. -/
  | leftLookahead
  | integer (n : Nat)
  | comma
  | endOfFile
  deriving DecidableEq

/-- The name of a token in messages. -/
def Token.name : Token → String
  | .ruleName _ => "RuleName"
  | .identifier _ => "Identifier"
  | .literal _ => "StringLiteral"
  | .charClass .. => "LBracket"
  | .assign => "Assign"
  | .leftParen => "LParen"
  | .rightParen => "RParen"
  | .leftBrace => "LBrace"
  | .rightBrace => "RBrace"
  | .pipe => "Pipe"
  | .star => "Star"
  | .plus => "Plus"
  | .question => "Question"
  | .leftLookahead => "LookaheadLParen"
  | .integer n => s!"IntegerLiteral({n})"
  | .comma => "Comma"
  | .endOfFile => "EndOfFile"

/-- The place where a token's last sign stands: the closing bracket of a class, and the start of
every other token. -/
def Located.last (t : Located Token) : Position :=
  match t.value with
  | .charClass _ _ close => close
  | _ => t.position

end ConstrainedDecoding.Ebnf
