import ConstrainedDecoding.Automaton.Dfa
import ConstrainedDecoding.Automaton.Expansion
import ConstrainedDecoding.Automaton.Nfa
import ConstrainedDecoding.Automaton.OfGrammar
import ConstrainedDecoding.Automaton.Table
import ConstrainedDecoding.Automaton.Utf8Paths
import ConstrainedDecoding.Automaton.Wiring
import ConstrainedDecoding.Compiled.Basic
import ConstrainedDecoding.Compiled.Payload
import ConstrainedDecoding.Compiler.Basic
import ConstrainedDecoding.Compiler.Shared
import ConstrainedDecoding.Ebnf.Fault
import ConstrainedDecoding.Ebnf.Grammar
import ConstrainedDecoding.Ebnf.Lexer
import ConstrainedDecoding.Ebnf.Parser
import ConstrainedDecoding.Ebnf.Phrase
import ConstrainedDecoding.Ebnf.Source
import ConstrainedDecoding.Ebnf.Token
import ConstrainedDecoding.Error
import ConstrainedDecoding.Grammar.Basic
import ConstrainedDecoding.Grammar.Canonical
import ConstrainedDecoding.Grammar.Combination
import ConstrainedDecoding.Grammar.Draft
import ConstrainedDecoding.Grammar.FrontEnds
import ConstrainedDecoding.Grammar.NameTable
import ConstrainedDecoding.Grammar.Payload
import ConstrainedDecoding.Grammar.Printer
import ConstrainedDecoding.Grammar.Reduced
import ConstrainedDecoding.Json.Pointer
import ConstrainedDecoding.Json.Printer
import ConstrainedDecoding.Json.Reader
import ConstrainedDecoding.Json.Value
import ConstrainedDecoding.Marks
import ConstrainedDecoding.Mask.Bitmask
import ConstrainedDecoding.Mask.Logit
import ConstrainedDecoding.Mask.Token
import ConstrainedDecoding.Matcher.Basic
import ConstrainedDecoding.Matcher.Forced
import ConstrainedDecoding.Matcher.Mask
import ConstrainedDecoding.Matcher.Report
import ConstrainedDecoding.Matcher.Stack
import ConstrainedDecoding.Numeral.Floating
import ConstrainedDecoding.Payload
import ConstrainedDecoding.Proofs.AcceptedCounts
import ConstrainedDecoding.Proofs.Agreement
import ConstrainedDecoding.Proofs.AnyValue
import ConstrainedDecoding.Proofs.Arena
import ConstrainedDecoding.Proofs.ArraySchemas
import ConstrainedDecoding.Proofs.Bitmask
import ConstrainedDecoding.Proofs.BufferRows
import ConstrainedDecoding.Proofs.Caching
import ConstrainedDecoding.Proofs.Canonical
import ConstrainedDecoding.Proofs.Ceilings
import ConstrainedDecoding.Proofs.CharLanguages
import ConstrainedDecoding.Proofs.ClassAutomata
import ConstrainedDecoding.Proofs.Classification
import ConstrainedDecoding.Proofs.ClosedRules
import ConstrainedDecoding.Proofs.Combination
import ConstrainedDecoding.Proofs.CompiledPayloads
import ConstrainedDecoding.Proofs.Containers
import ConstrainedDecoding.Proofs.Containment
import ConstrainedDecoding.Proofs.ConversionVisits
import ConstrainedDecoding.Proofs.Conversions
import ConstrainedDecoding.Proofs.Copies
import ConstrainedDecoding.Proofs.DecimalRanges
import ConstrainedDecoding.Proofs.Declarations
import ConstrainedDecoding.Proofs.Descent
import ConstrainedDecoding.Proofs.Determinism
import ConstrainedDecoding.Proofs.Dfa
import ConstrainedDecoding.Proofs.DigitTexts
import ConstrainedDecoding.Proofs.Drafts
import ConstrainedDecoding.Proofs.Drawing
import ConstrainedDecoding.Proofs.Embedding
import ConstrainedDecoding.Proofs.Encodings
import ConstrainedDecoding.Proofs.Escapes
import ConstrainedDecoding.Proofs.Expansion
import ConstrainedDecoding.Proofs.FlatStacks
import ConstrainedDecoding.Proofs.Folds
import ConstrainedDecoding.Proofs.ForcedRuns
import ConstrainedDecoding.Proofs.FreeText
import ConstrainedDecoding.Proofs.FreshRules
import ConstrainedDecoding.Proofs.GrammarPayloads
import ConstrainedDecoding.Proofs.Growth
import ConstrainedDecoding.Proofs.IntegerRanges
import ConstrainedDecoding.Proofs.IntegerSchemas
import ConstrainedDecoding.Proofs.Isolation
import ConstrainedDecoding.Proofs.Items
import ConstrainedDecoding.Proofs.JsonGrammar
import ConstrainedDecoding.Proofs.JsonReading
import ConstrainedDecoding.Proofs.JsonSchemas
import ConstrainedDecoding.Proofs.JsonSources
import ConstrainedDecoding.Proofs.JsonTexts
import ConstrainedDecoding.Proofs.Language
import ConstrainedDecoding.Proofs.Levels
import ConstrainedDecoding.Proofs.Lexing
import ConstrainedDecoding.Proofs.Lookups
import ConstrainedDecoding.Proofs.Machines
import ConstrainedDecoding.Proofs.Meaning
import ConstrainedDecoding.Proofs.Names
import ConstrainedDecoding.Proofs.NextTokens
import ConstrainedDecoding.Proofs.NumberSchemas
import ConstrainedDecoding.Proofs.ObjectSchemas
import ConstrainedDecoding.Proofs.Parsing
import ConstrainedDecoding.Proofs.Paths
import ConstrainedDecoding.Proofs.PatternDescent
import ConstrainedDecoding.Proofs.PatternEscapes
import ConstrainedDecoding.Proofs.PatternReading
import ConstrainedDecoding.Proofs.PatternSyntax
import ConstrainedDecoding.Proofs.PatternTexts
import ConstrainedDecoding.Proofs.Patterns
import ConstrainedDecoding.Proofs.Payloads
import ConstrainedDecoding.Proofs.Phrases
import ConstrainedDecoding.Proofs.Pieces
import ConstrainedDecoding.Proofs.PrintedValues
import ConstrainedDecoding.Proofs.Printing
import ConstrainedDecoding.Proofs.Productions
import ConstrainedDecoding.Proofs.RangeWords
import ConstrainedDecoding.Proofs.Reach
import ConstrainedDecoding.Proofs.Recency
import ConstrainedDecoding.Proofs.Recognition
import ConstrainedDecoding.Proofs.Reduced
import ConstrainedDecoding.Proofs.Renumbering
import ConstrainedDecoding.Proofs.Replay
import ConstrainedDecoding.Proofs.RoundTrip
import ConstrainedDecoding.Proofs.Rounding
import ConstrainedDecoding.Proofs.Rows
import ConstrainedDecoding.Proofs.RuleAutomata
import ConstrainedDecoding.Proofs.SchemaLanguages
import ConstrainedDecoding.Proofs.SchemaMeanings
import ConstrainedDecoding.Proofs.SchemaReading
import ConstrainedDecoding.Proofs.SchemaShapes
import ConstrainedDecoding.Proofs.SchemaSources
import ConstrainedDecoding.Proofs.SchemaTexts
import ConstrainedDecoding.Proofs.SchemaVisits
import ConstrainedDecoding.Proofs.Shapes
import ConstrainedDecoding.Proofs.SharedTrials
import ConstrainedDecoding.Proofs.ShortestDigits
import ConstrainedDecoding.Proofs.ShownTexts
import ConstrainedDecoding.Proofs.SingleTable
import ConstrainedDecoding.Proofs.SortedTokens
import ConstrainedDecoding.Proofs.Sources
import ConstrainedDecoding.Proofs.StringPatterns
import ConstrainedDecoding.Proofs.Table
import ConstrainedDecoding.Proofs.TagLanguage
import ConstrainedDecoding.Proofs.TagReach
import ConstrainedDecoding.Proofs.Telling
import ConstrainedDecoding.Proofs.TextLanguages
import ConstrainedDecoding.Proofs.Texts
import ConstrainedDecoding.Proofs.TokenEnds
import ConstrainedDecoding.Proofs.TokenMask
import ConstrainedDecoding.Proofs.Trials
import ConstrainedDecoding.Proofs.TriggerLinks
import ConstrainedDecoding.Proofs.TriggerTrees
import ConstrainedDecoding.Proofs.Turns
import ConstrainedDecoding.Proofs.Utf8Paths
import ConstrainedDecoding.Proofs.ValidStarts
import ConstrainedDecoding.Proofs.Verdicts
import ConstrainedDecoding.Proofs.VisibleTexts
import ConstrainedDecoding.Proofs.Vocabulary
import ConstrainedDecoding.Proofs.VocabularyPayloads
import ConstrainedDecoding.Proofs.Watching
import ConstrainedDecoding.Proofs.Widths
import ConstrainedDecoding.Proofs.Wiring
import ConstrainedDecoding.Proofs.WrittenForms
import ConstrainedDecoding.Reach
import ConstrainedDecoding.Regex.Classes
import ConstrainedDecoding.Regex.Fault
import ConstrainedDecoding.Regex.IntegerRange
import ConstrainedDecoding.Regex.Parser
import ConstrainedDecoding.Regex.Pattern
import ConstrainedDecoding.Schema.Basic
import ConstrainedDecoding.Schema.Fault
import ConstrainedDecoding.Schema.Layout
import ConstrainedDecoding.Schema.Options
import ConstrainedDecoding.Schema.Productions
import ConstrainedDecoding.Setting
import ConstrainedDecoding.Tag.Basic
import ConstrainedDecoding.Tag.Fault
import ConstrainedDecoding.Tag.Grammar
import ConstrainedDecoding.Tag.Watcher
import ConstrainedDecoding.Text.Hexadecimal
import ConstrainedDecoding.Text.Quoted
import ConstrainedDecoding.Text.Unprintable
import ConstrainedDecoding.Text.Utf8
import ConstrainedDecoding.Text.Whitespace
import ConstrainedDecoding.Vocabulary.Basic
import ConstrainedDecoding.Vocabulary.Fault
import ConstrainedDecoding.Vocabulary.Payload
