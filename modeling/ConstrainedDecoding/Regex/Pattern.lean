import ConstrainedDecoding.Ebnf.Source

/-!
# Patterns

A pattern describes the texts that it matches in full. Patterns are written as grammar expressions:
a run of plain characters becomes one literal, and a group keeps its parentheses.
-/
namespace ConstrainedDecoding.Regex

/-- How often the atom before a quantifier matches. -/
inductive Quantifier
  | star
  | plus
  | question
  | range (least : Nat) (most : Option Nat)
  deriving DecidableEq

/-- A regular expression. -/
inductive Pattern
  | char (c : Char)
  | set (set : CharClass)
  | group (body : Pattern)
  | quantified (body : Pattern) (quantifier : Quantifier)
  | sequence (items : List Pattern)
  | alternation (alternatives : List Pattern)

/-- The quantifier of a grammar expression that says the same. -/
def Quantifier.toEbnf : Quantifier → Ebnf.Quantifier
  | .star => .star
  | .plus => .plus
  | .question => .question
  | .range least none => .atLeast least
  | .range least (some most) => if most = least then .exactly least else .between least most

/-- Puts a literal before expressions, as one literal with the literal that they start with. The
flag tells that the first expression is a run of plain characters. -/
def consChar (c : Char) : List Ebnf.Source × Bool → List Ebnf.Source × Bool
  | (.literal s :: rest, true) => (.literal (c.toString ++ s) :: rest, true)
  | (rest, _) => (.literal c.toString :: rest, true)

namespace Pattern

mutual

/-- A pattern as a grammar expression. -/
def toSource : Pattern → Ebnf.Source
  | .char c => .literal c.toString
  | .set s => .charClass .numbered s
  | .group body => .group [body.toSource]
  | .quantified body q => .quantified body.toSource q.toEbnf
  | .sequence items =>
    match (toSources items).1 with
    | [] => .literal ""
    | sources => .sequence sources
  | .alternation alternatives => .ofAlternatives (toAlternatives alternatives)

/-- The items of a sequence as grammar expressions, with runs of characters merged; the flag tells
that the first expression is such a run. -/
def toSources : List Pattern → List Ebnf.Source × Bool
  | [] => ([], false)
  | .char c :: rest => consChar c (toSources rest)
  | p :: rest => (p.toSource :: (toSources rest).1, false)

/-- Alternatives as grammar expressions. -/
def toAlternatives : List Pattern → List Ebnf.Source
  | [] => []
  | p :: rest => p.toSource :: toAlternatives rest

end

end Pattern

end ConstrainedDecoding.Regex
