import ConstrainedDecoding.Grammar.FrontEnds
import ConstrainedDecoding.Proofs.JsonSources
import ConstrainedDecoding.Proofs.Productions

/-!
# The grammar of JSON values

The text of the grammar has productions for the parts of JSON texts. White space may stand after its
commas but not before them, so the grammar describes the JSON values that are written in this way.
-/
namespace ConstrainedDecoding.Grammar

open Ebnf Computability
open Schema (classOf digit naturalSource)

/-! ## Productions -/

/-- Items with commas between them, or none, between brackets. -/
def bracketed (opening item closing : String) : Source :=
  .sequence [.literal opening, .name "ws", .quantified (.group [.sequence [.name item,
    .quantified (.group [.sequence [.literal ",", .name "ws", .name item]]) .star]]) .question,
    .name "ws", .literal closing]

/-- The productions of the grammar of JSON values. -/
def jsonProductions : List Production :=
  let hexDigit := classOf [('0', '9'), ('a', 'f'), ('A', 'F')]
  [⟨"root", [.name "value"]⟩,
    ⟨"value", [.name "object", .name "array", .name "string", .name "number", .literal "true",
      .literal "false", .literal "null"]⟩,
    ⟨"object", [bracketed "\x7b" "pair" "\x7d"]⟩,
    ⟨"pair", [.sequence [.name "ws", .name "string", .name "ws", .literal ":", .name "ws",
      .name "value"]]⟩,
    ⟨"array", [bracketed "[" "value" "]"]⟩,
    ⟨"string", [.sequence [.literal "\"", .quantified (.name "char") .star, .literal "\""]]⟩,
    ⟨"char", [.charClass .numbered ⟨true, [(0x22, 0x22), (0x5c, 0x5c), (0x00, 0x1f)]⟩,
      .sequence [.literal "\\", .name "escape"]]⟩,
    ⟨"escape", [.literal "\"", .literal "\\", .literal "/", .literal "b", .literal "f", .literal "n",
      .literal "r", .literal "t", .sequence [.literal "u", hexDigit, hexDigit, hexDigit, hexDigit]]⟩,
    ⟨"number", [.sequence [.name "integer", .quantified (.name "fraction") .question,
      .quantified (.name "exponent") .question]]⟩,
    ⟨"integer", [.sequence [.quantified (.literal "-") .question, naturalSource]]⟩,
    ⟨"fraction", [.sequence [.literal ".", .quantified digit .plus]]⟩,
    ⟨"exponent", [.sequence [classOf [('e', 'e'), ('E', 'E')],
      .quantified (.charClass .plain ⟨false, [(0x2b, 0x2b), (0x2d, 0x2d)]⟩) .question,
      .quantified digit .plus]]⟩,
    ⟨"ws", [.quantified (.charClass .printed
      ⟨false, [(0x20, 0x20), (9, 9), (10, 10), (13, 13)]⟩) .star]⟩]

set_option maxRecDepth 20000 in
theorem written_jsonProductions : Production.Written jsonProductions jsonText := by
  have text : String.ofList (List.replicate 1 '\n' ++ jsonProductions.flatMap (·.text.toList)) = jsonText := by
    simp only [jsonProductions, bracketed, classOf, digit, naturalSource, List.flatMap_cons, List.flatMap_nil,
      Production.toList_text, Production.line, Source.texts, Source.text, Quantifier.text,
      String.intercalate_cons_cons, String.intercalate_singleton, String.toList_append,
      toList_sourceLiteral, toList_literalText, toList_classStyle, List.append_assoc]
    rfl
  exact ⟨1, by rw [← text, String.toList_ofList]⟩

/-- The names of the productions. -/
def jsonNames : List String := ["root", "value", "object", "pair", "array", "string", "char", "escape",
  "number", "integer", "fraction", "exponent", "ws"]

theorem names_jsonProductions : Production.names jsonProductions = jsonNames := rfl

private theorem perm_unescaped :
    [((0x22 : UInt32), (0x22 : UInt32)), (0x5c, 0x5c), (0x00, 0x1f)].Perm
      [(0x00, 0x1f), (0x22, 0x22), (0x5c, 0x5c)] := by decide

theorem wellFormed_jsonProductions : Production.WellFormed jsonProductions := by
  have named : ∀ n ∈ jsonNames, IsName n := by
    simp [jsonNames, IsName, startsName, continuesName]
  refine ⟨by rw [names_jsonProductions]; decide, fun p hp => named _ (List.mem_map_of_mem hp),
    by simp [jsonProductions], ?_⟩
  have unescaped := Schema.writes_unescaped perm_unescaped
  simp only [jsonNames, List.forall_mem_cons] at named
  rw [names_jsonProductions]
  simp [jsonProductions, bracketed, jsonNames, named, Schema.readable_classOf, unescaped, ClassStyle.writes_signs,
    Schema.readable_naturalSource.toSequence]

/-! ## What they describe -/

/-- What the names of the productions describe. -/
abbrev jsonMeaning : Meaning := Production.meaning jsonProductions

theorem jsonMeaning_eq {n : String} {p : Production} (h : jsonProductions.find? (·.name = n) = some p) :
    jsonMeaning n = Source.choiceLanguage jsonMeaning p.alternatives := by
  obtain rfl : p.name = n := by simpa using List.find?_some h
  exact Production.meaning_of_mem wellFormed_jsonProductions.nodup (List.mem_of_find?_eq_some h)

theorem jsonMeaning_ws : jsonMeaning "ws" = Json.Standard.blanks := by
  rw [jsonMeaning_eq rfl]
  simp [Json.Standard.blanks]

theorem jsonMeaning_string : jsonMeaning "string" = Json.Standard.string := by
  have escape : jsonMeaning "escape" = Json.Standard.escape := by
    rw [jsonMeaning_eq rfl]
    simp [Json.Standard.escape, Language.single_insert, Language.single_singleton, Schema.between_hexDigit,
      pow_succ, mul_assoc, sup_assoc]
  have char : jsonMeaning "char" = Json.Standard.char := by
    rw [jsonMeaning_eq rfl]
    simp [escape, Schema.chars_unescaped perm_unescaped, Json.Standard.char]
  rw [jsonMeaning_eq rfl]
  simp [char, Json.Standard.string, mul_assoc]

theorem jsonMeaning_number : jsonMeaning "number" = Json.Standard.number := by
  have integer : jsonMeaning "integer" = _ := jsonMeaning_eq rfl
  have fraction : jsonMeaning "fraction" = _ := jsonMeaning_eq rfl
  have exponent : jsonMeaning "exponent" = _ := jsonMeaning_eq rfl
  rw [jsonMeaning_eq rfl, ← Schema.language_numberSource (K := jsonMeaning)]
  simp [integer, fraction, exponent, Schema.numberSource, mul_assoc]

theorem language_bracketed (opening item closing : String) :
    (bracketed opening item closing).language jsonMeaning = {opening.toList} *
      (Json.Standard.blanks * (1 + Json.Standard.listOf 1 (jsonMeaning item)) * Json.Standard.blanks) *
        {closing.toList} := by
  simp [bracketed, jsonMeaning_ws, Json.Standard.listOf, mul_assoc]

theorem jsonMeaning_array : jsonMeaning "array" = {['[']} *
    (Json.Standard.blanks + (Json.Standard.Part.list .value).language 1 (jsonMeaning "value")) * {[']']} := by
  rw [jsonMeaning_eq rfl, Source.choiceLanguage_cons, language_bracketed, Json.Standard.blanks_listOf]
  exact add_zero _

theorem jsonMeaning_object : jsonMeaning "object" = {['\x7b']} *
    (Json.Standard.blanks + (Json.Standard.Part.list .member).language 1 (jsonMeaning "value")) *
      {['\x7d']} := by
  have pair : jsonMeaning "pair" = Json.Standard.blanks *
      Json.Standard.Part.member.language 1 (jsonMeaning "value") := by
    rw [jsonMeaning_eq rfl]
    simp [jsonMeaning_ws, jsonMeaning_string, Json.Standard.Part.language, mul_assoc]
  rw [jsonMeaning_eq rfl, Source.choiceLanguage_cons, language_bracketed, Json.Standard.blanks_listOf, pair,
    Json.Standard.blanks_listOf_blanks]
  exact add_zero _

theorem jsonMeaning_value : jsonMeaning "value" = Json.Standard.values 1 := by
  refine Json.Standard.eq_values ?_
  conv_lhs => rw [jsonMeaning_eq rfl]
  simp only [Source.choiceLanguage_cons, Source.choiceLanguage_nil, Source.language_name,
    Source.language_literal, jsonMeaning_object, jsonMeaning_array, jsonMeaning_string, jsonMeaning_number,
    Json.Standard.step, add_zero]
  ac_rfl

/-- The text of the grammar is accepted, and the grammar describes the JSON values that have no white
space before commas. -/
theorem json_language : parse jsonText "root" = .ok json ∧
    json.language = Utf8.encoded (Json.Standard.values 1) := by
  obtain ⟨-, g, -, -, -, hg, hlanguage⟩ := exists_parse_productions wellFormed_jsonProductions
    written_jsonProductions (show "root" ∈ Production.names jsonProductions by simp [jsonProductions])
  have root : jsonMeaning "root" = jsonMeaning "value" := by
    conv_lhs => rw [jsonMeaning_eq rfl]
    simp
  obtain rfl : json = g := by rw [json, hg]; rfl
  exact ⟨hg, hlanguage.trans (congrArg Utf8.encoded (root.trans jsonMeaning_value))⟩

section

open Json.Standard

/-- The grammar tells the texts of JSON values from all others, as long as no value has white space
before a comma: it describes JSON values only, but only those without such white space. -/
theorem json_describes_unspaced_commas (w : Bytes) : parse jsonText "root" = .ok json ∧
    (w ∈ json.language ↔ ∃ text ∈ values 1, w = Utf8.encode text) ∧
      ((w ∈ json.language ↔ ∃ text ∈ texts, w = Utf8.encode text) ↔
        ((∃ text ∈ texts, w = Utf8.encode text) → ∃ text ∈ values 1, w = Utf8.encode text)) := by
  have describes : w ∈ json.language ↔ ∃ text ∈ values 1, w = Utf8.encode text := by
    rw [json_language.2]
    rfl
  have only : (∃ text ∈ values 1, w = Utf8.encode text) → ∃ text ∈ texts, w = Utf8.encode text :=
    fun ⟨text, htext, heq⟩ => ⟨text, values_mono one_le_blanks htext, heq⟩
  refine ⟨json_language.1, describes, ?_⟩
  rw [describes]
  exact ⟨fun h => h.2, fun h => ⟨only, h⟩⟩

/-- A JSON value with a space before a comma is not described. -/
theorem json_misses_spaced_comma : "[1 ,2]".toList ∈ texts ∧
    Utf8.encode "[1 ,2]".toList ∉ json.language := by
  refine ⟨spacedComma_mem_texts, ?_⟩
  rw [json_language.2, Utf8.encode_mem_encoded]
  exact spacedComma_notMem_values

end

end ConstrainedDecoding.Grammar
