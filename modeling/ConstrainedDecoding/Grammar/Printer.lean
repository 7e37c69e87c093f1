import ConstrainedDecoding.Grammar.Basic
import ConstrainedDecoding.Text.Hexadecimal

/-!
# Grammar text

A grammar is written one rule to a line. Sequences and choices stand in parentheses, a character
without a place in the text of a literal or class is written as an escape, and a byte that belongs
to no character by its two hexadecimal digits.
-/
namespace ConstrainedDecoding

/-- A control character: C0, DEL or C1. -/
def Text.isControl (c : Char) : Bool := c.toNat < 0x20 || (0x7f ≤ c.toNat && c.toNat < 0xa0)

namespace Grammar

/-- A character as it stands in a literal. -/
def literalChar (c : Char) : String :=
  if c = '\\' then "\\\\"
  else if c = '"' then "\\\""
  else if c = '\n' then "\\n"
  else if c = '\r' then "\\r"
  else if c = '\t' then "\\t"
  else if Text.isControl c then "\\u" ++ Text.hex 4 c.toNat
  else c.toString

/-- A byte string between double quotes. -/
def literalText (bytes : Bytes) : String :=
  let piece : Utf8.Piece → String
    | .char c => literalChar c
    | .stray b => "\\x" ++ Text.hex 2 b.toNat
  "\"" ++ (Utf8.pieces bytes).foldl (fun out p => out ++ piece p) "" ++ "\""

/-- A code point as it stands in a class. -/
def codePointText (n : UInt32) : String :=
  if n = 0x5c then "\\\\"
  else if n = 0x5d then "\\]"
  else if n = 0x5e then "\\^"
  else if n = 0x2d then "\\-"
  else if n = 0x09 then "\\t"
  else if n = 0x0a then "\\n"
  else if n = 0x0d then "\\r"
  else if 0x20 ≤ n ∧ n ≤ 0x7e then (Char.ofNat n.toNat).toString
  else if n ≤ 0xffff then "\\u" ++ Text.hex 4 n.toNat
  else "\\U" ++ Text.hex 8 n.toNat

/-- A range of a class; a range of one code point is written as that code point. -/
def rangeText (r : UInt32 × UInt32) : String :=
  codePointText r.1 ++ if r.1 = r.2 then "" else "-" ++ codePointText r.2

/-- A class between brackets. -/
def classText (set : CharClass) : String :=
  "[" ++ (if set.negated then "^" else "") ++
    set.ranges.foldl (fun out r => out ++ rangeText r) "" ++ "]"

end Grammar

/-- A leaf as it is written, given the names of rules. -/
def Leaf.text (name : RuleId → String) : Leaf → String
  | .empty => "\"\""
  | .literal bytes => Grammar.literalText bytes
  | .charClass set => Grammar.classText set
  | .charClassStar set => Grammar.classText set ++ "*"
  | .reference r => name r
  | .repetition r least (some most) =>
    name r ++ "\x7b" ++ toString least.toNat ++ "," ++ toString most.toNat ++ "\x7d"
  | .repetition r least none => name r ++ "\x7b" ++ toString least.toNat ++ ",\x7d"

mutual

/-- A tree as it is written, given the names of rules. -/
def Tree.text (name : RuleId → String) : Tree → String
  | .leaf l => l.text name
  | .sequence items => "(" ++ " ".intercalate (Tree.texts name items) ++ ")"
  | .choice items => "(" ++ " | ".intercalate (Tree.texts name items) ++ ")"

/-- Trees as they are written. -/
def Tree.texts (name : RuleId → String) : List Tree → List String
  | [] => []
  | t :: ts => t.text name :: Tree.texts name ts

end

namespace Grammar

/-- A rule as it is written, given the trees of the arena. -/
def ruleText (g : Grammar) (tree : ExprId → Tree) (r : Rule) : String :=
  r.name ++ " ::= " ++ (tree r.body).text g.ruleName ++
    match r.lookahead with
    | some l => " (= " ++ (tree l.expr).text g.ruleName ++ ")"
    | none => ""

/-- The text of a grammar. -/
def text (g : Grammar) : String :=
  let trees := g.trees
  "\n".intercalate (g.rules.toList.map (g.ruleText fun e => trees.getD e default))

end Grammar

end ConstrainedDecoding
