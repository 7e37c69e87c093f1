import ConstrainedDecoding.Automaton.Nfa
import ConstrainedDecoding.Schema.Fault
import ConstrainedDecoding.Tag.Fault
import ConstrainedDecoding.Vocabulary.Fault

/-!
# Errors

An error has a cause from the part of the library that found it. Its message starts with the area
that the cause belongs to. Texts that are not JSON, and payloads with a part that is missing or of
the wrong kind, have no wording of their own.
-/
namespace ConstrainedDecoding

/-- Why a description gives no grammar, or a grammar no automata. -/
inductive GrammarFault
  | text (fault : Grammar.TextFault)
  | pattern (text : String) (fault : Regex.Fault)
  /-- The automaton of a rule has too many states. -/
  | automaton (rule : String)
  | tooManyRules (count : Nat)
  deriving DecidableEq

def GrammarFault.message : GrammarFault → String
  | .text fault => fault.message
  | .pattern p fault => Schema.patternFaultMessage p fault
  | .automaton rule =>
    s!"while building automaton for rule `{rule}`: rule automaton exceeds {stateLimit} states"
  | .tooManyRules count =>
    s!"grammar has {count} rules, more than {stateLimit - 1} are not supported"

/-- Why a serialized payload is refused. -/
inductive PayloadFault
  | noVersion
  /-- A part is missing or of the wrong kind. -/
  | shape
  /-- A text inside the payload is not JSON. -/
  | innerNotJson
  | defect (d : Grammar.Defect)
  | vocabulary (fault : Vocabulary.Fault)
  | otherTokenizer
  | lowering (fault : GrammarFault)
  | maskCount (expected found : Nat)
  | acceptedOutside (id : Nat)
  | bitsetWords (count : Nat)
  | uncertainOrder
  | maskIndex (i : Nat)
  deriving DecidableEq

/-- The words that introduce faults of grammars. -/
def GrammarFault.area : String := "grammar syntax error: "

/-- The wording of a fault, where it has one. -/
def PayloadFault.message : PayloadFault → Option String
  | .noVersion => some "missing \"version\" field"
  | .shape | .innerNotJson => none
  | .defect d => some d.message
  | .vocabulary fault => fault.message
  | .otherTokenizer => some "compiled grammar was produced for a different tokenizer"
  | .lowering fault => some (GrammarFault.area ++ fault.message)
  | .maskCount expected found => some s!"expected {expected} state masks, found {found}"
  | .acceptedOutside id => some s!"accepted token {id} is outside the vocabulary"
  | .bitsetWords count => some s!"accepted bitset has {count} words"
  | .uncertainOrder =>
    some "uncertain token list is not an ascending list of vocabulary indices"
  | .maskIndex i => some s!"mask index {i} out of range"

/-- What can go wrong when grammars, vocabularies and compiled grammars are made or read. -/
inductive Error
  | grammar (fault : GrammarFault)
  | notJson
  | schema (fault : Schema.Fault)
  | tag (fault : Tag.Fault)
  | version (found : Json.Value)
  | payload (fault : PayloadFault)
  | tokenizer (fault : Vocabulary.Fault)

/-- The version that payloads carry. -/
def payloadVersion : String := "v1"

/-- The message of an error, where it has one. -/
def Error.message : Error → Option String
  | .grammar fault => some (GrammarFault.area ++ fault.message)
  | .notJson => none
  | .schema fault => some ("invalid JSON schema: " ++ fault.message)
  | .tag fault => fault.message.map ("invalid structural tag: " ++ ·)
  | .version found =>
    some ("serialization version mismatch: expected " ++ payloadVersion ++ ", found " ++ found.text)
  | .payload fault => fault.message.map ("malformed serialized payload: " ++ ·)
  | .tokenizer (.unknownKind n) =>
    some s!"invalid tokenizer: bad tokenizer metadata: unknown vocab_type {n}"
  | .tokenizer fault => fault.message.map ("invalid tokenizer: " ++ ·)

end ConstrainedDecoding
