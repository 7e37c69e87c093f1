import ConstrainedDecoding.Automaton.Table
import ConstrainedDecoding.Automaton.Wiring
import ConstrainedDecoding.Error
import ConstrainedDecoding.Grammar.Canonical
import ConstrainedDecoding.Grammar.Reduced

/-!
# Automata of grammars

A grammar is lowered to its reduced canonical form, and each rule of that form gets a table of its
own.
-/
namespace ConstrainedDecoding.Grammar

/-- The reduced canonical form of a grammar. -/
def lowered (g : Grammar) : Except GrammarFault Grammar :=
  (do reduced (← canonical g)).mapError fun d => .text (.defect d)

/-- The table of a rule. -/
def ruleTable (rule : Rule) (x : Expansion) : Except GrammarFault Table :=
  match x.nfa.toDfa? with
  | some d => .ok (.ofDfa d)
  | none => .error (.automaton rule.name)

/-- The tables of all rules. -/
def tables (g : Grammar) : Except GrammarFault (Array Table) :=
  if stateLimit ≤ g.rules.size then .error (.tooManyRules g.rules.size)
  else do
    let tables ← (g.rules.zip g.expansions).toList.mapM fun (rule, x) => ruleTable rule x
    return tables.toArray

end ConstrainedDecoding.Grammar
