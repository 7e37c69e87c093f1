import ConstrainedDecoding.Ebnf.Token
import ConstrainedDecoding.Grammar.NameTable

/-!
# Right-hand sides of rules

A phrase is the right-hand side of a rule as the text writes it: a choice of sequences of elements,
where an element may be a group and may carry one quantifier. `Phrase.hoists` tells which
quantified elements need a rule of their own.
-/
namespace ConstrainedDecoding.Ebnf

/-- A part of a right-hand side. -/
inductive Phrase
  /-- `""` or `()`. -/
  | empty
  | literal (text : String)
  | charClass (set : CharClass)
  | reference (rule : RuleId)
  | quantified (body : Phrase) (least : UInt32) (most : Option UInt32)
  | sequence (items : List Phrase)
  | choice (alternatives : List Phrase)

/-- Whether a quantified element becomes a rule of its own. A reference is repeated as it is, and
any number of characters of a class is a leaf. -/
def Phrase.hoists (least : UInt32) (most : Option UInt32) : Phrase → Bool
  | .reference _ => false
  | .charClass _ => ¬ (least = 0 ∧ most = none)
  | _ => true

/-- A rule as the text declares it. -/
structure Declaration where
  name : String
  rule : RuleId
  body : Phrase
  lookahead : Option Phrase

end ConstrainedDecoding.Ebnf
