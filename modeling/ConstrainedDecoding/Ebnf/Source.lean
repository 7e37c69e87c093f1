import ConstrainedDecoding.Grammar.Printer
import ConstrainedDecoding.Text.Whitespace

/-!
# Writing grammar texts

A source is an expression to be written as grammar text, and a production gives a name its
alternatives. The front ends build sources; reading the written text back gives a grammar.
-/
namespace ConstrainedDecoding.Ebnf

/-- How a quantifier is written. -/
inductive Quantifier
  | star
  | plus
  | question
  | exactly (n : Nat)
  | atLeast (n : Nat)
  | between (least most : Nat)
  deriving DecidableEq

/-- The quantifier for `least` times or more, up to `most` times if that is given, in its shortest
form; there is none for at most zero times. -/
def Quantifier.ofBounds? (least : Nat) (most : Option Nat) : Option Quantifier :=
  if most = some 0 then none
  else if least = 0 ∧ most = none then some .star
  else if least = 1 ∧ most = none then some .plus
  else if least = 0 ∧ most = some 1 then some .question
  else
    match most with
    | none => some (.atLeast least)
    | some most => some (if least = most then .exactly least else .between least most)

def Quantifier.text : Quantifier → String
  | .star => "*"
  | .plus => "+"
  | .question => "?"
  | .exactly n => "\x7b" ++ toString n ++ "\x7d"
  | .atLeast n => "\x7b" ++ toString n ++ ",\x7d"
  | .between least most => "\x7b" ++ toString least ++ "," ++ toString most ++ "\x7d"

/-- How the code points of a class are written. -/
inductive ClassStyle
  /-- As grammars are printed. -/
  | printed
  /-- Specials with a backslash, invisible characters by their numbers. -/
  | numbered
  /-- Every code point as it is. -/
  | plain
  deriving DecidableEq

/-- A code point as it stands in a class of the numbered style. -/
def numberedChar (n : UInt32) : String :=
  let byNumber := if n ≤ 0xffff then "\\u" ++ Text.hex 4 n.toNat else "\\U" ++ Text.hex 8 n.toNat
  if n.toNat.isValidChar then
    let c := Char.ofNat n.toNat
    if c ∈ ['\\', ']', '^', '-', '['] then "\\" ++ c.toString
    else if c = ' ' ∨ ¬ (Text.isControl c ∨ Text.isWhitespace c) then c.toString
    else byNumber
  else byNumber

/-- A code point as it stands in a class. -/
def ClassStyle.char : ClassStyle → UInt32 → String
  | .printed, n => Grammar.codePointText n
  | .numbered, n => numberedChar n
  | .plain, n => (Char.ofNat n.toNat).toString

/-- A class between brackets. -/
def ClassStyle.text (style : ClassStyle) (set : CharClass) : String :=
  let range (r : UInt32 × UInt32) : String :=
    style.char r.1 ++ if r.1 = r.2 then "" else "-" ++ style.char r.2
  "[" ++ (if set.negated then "^" else "") ++
    set.ranges.foldl (fun out r => out ++ range r) "" ++ "]"

/-- An expression to be written. -/
inductive Source
  | literal (text : String)
  | charClass (style : ClassStyle) (set : CharClass)
  | name (rule : String)
  | quantified (body : Source) (quantifier : Quantifier)
  | sequence (items : List Source)
  /-- Alternatives in parentheses. -/
  | group (alternatives : List Source)

namespace Source

/-- A text between double quotes. -/
def literalText (s : String) : String :=
  "\"" ++ s.foldl (fun out c => out ++ Grammar.literalChar c) "" ++ "\""

mutual

/-- An expression as it is written. -/
def text : Source → String
  | .literal s => literalText s
  | .charClass style set => style.text set
  | .name rule => rule
  | .quantified body q => body.text ++ q.text
  | .sequence items => " ".intercalate (texts items)
  | .group alternatives => "(" ++ " | ".intercalate (texts alternatives) ++ ")"

/-- Expressions as they are written. -/
def texts : List Source → List String
  | [] => []
  | s :: ss => s.text :: texts ss

end

/-- A choice between alternatives; parentheses are needed only for several. -/
def ofAlternatives : List Source → Source
  | [single] => single
  | several => .group several

/-- An expression in parentheses, repeated; nothing if it is repeated at most zero times. -/
def repeated (s : Source) (least : Nat) (most : Option Nat) : List Source :=
  match Quantifier.ofBounds? least most with
  | some q => [.quantified (.group [s]) q]
  | none => []

end Source

/-- A rule to be written: a name and its alternatives. -/
structure Production where
  name : String
  alternatives : List Source

/-- The line of a production. -/
def Production.text (p : Production) : String :=
  p.name ++ " ::= " ++ " | ".intercalate (Source.texts p.alternatives) ++ "\n"

end ConstrainedDecoding.Ebnf
