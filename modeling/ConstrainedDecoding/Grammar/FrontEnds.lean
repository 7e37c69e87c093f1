import ConstrainedDecoding.Error
import ConstrainedDecoding.Json.Reader
import ConstrainedDecoding.Schema.Productions

/-!
# Grammars from patterns and schemas

Both front ends write a grammar text and read it back.
-/
namespace ConstrainedDecoding

/-- The grammar text of a pattern. -/
def Regex.ebnfText (pattern : String) : Except Error String :=
  match Regex.Pattern.parse pattern with
  | .error fault => .error (.grammar (.pattern pattern fault))
  | .ok p => .ok (Ebnf.Production.text ⟨"root", [p.toSource]⟩)

namespace Grammar

/-- The grammar of a grammar text. -/
def ofEbnf (text root : String) : Except Error Grammar :=
  (parse text root).mapError fun fault => .grammar (.text fault)

/-- The grammar of the texts that a pattern matches in full. -/
def ofPattern (pattern : String) : Except Error Grammar := do
  ofEbnf (← Regex.ebnfText pattern) "root"

/-- The grammar of the JSON texts of the values that a schema asks for. -/
def ofSchema (schema : Json.Value) (o : Schema.Options) : Except Error Grammar := do
  let text ← (Schema.ebnfText schema o).mapError .schema
  (parse text "root").mapError fun fault => .schema (.grammar fault)

/-- The grammar of the JSON texts of the values that a schema text asks for. -/
def ofSchemaText (text : String) (o : Schema.Options) : Except Error Grammar :=
  match Json.parse? text with
  | none => .error .notJson
  | some schema => ofSchema schema o

/-- The text of the grammar of JSON values. -/
def jsonText : String :=
"
root ::= value
value ::= object | array | string | number | \"true\" | \"false\" | \"null\"
object ::= \"\x7b\" ws (pair (\",\" ws pair)*)? ws \"\x7d\"
pair ::= ws string ws \":\" ws value
array ::= \"[\" ws (value (\",\" ws value)*)? ws \"]\"
string ::= \"\\\"\" char* \"\\\"\"
char ::= [^\"\\\\\\u0000-\\u001f] | \"\\\\\" escape
escape ::= \"\\\"\" | \"\\\\\" | \"/\" | \"b\" | \"f\" | \"n\" | \"r\" | \"t\" | \"u\" [0-9a-fA-F] [0-9a-fA-F] [0-9a-fA-F] [0-9a-fA-F]
number ::= integer fraction? exponent?
integer ::= \"-\"? (\"0\" | [1-9] [0-9]*)
fraction ::= \".\" [0-9]+
exponent ::= [eE] [+-]? [0-9]+
ws ::= [ \\t\\n\\r]*
"

/-- A grammar that describes nothing. -/
def nothing : Grammar := ⟨#[⟨"root", 0, none⟩], #[.leaf (.charClass ⟨false, []⟩)], 0⟩

/-- The grammar of JSON values. -/
def json : Grammar := (parse jsonText "root").toOption.getD nothing

end Grammar

end ConstrainedDecoding
