import ConstrainedDecoding.Proofs.JsonTexts
import ConstrainedDecoding.Proofs.SchemaTexts

/-!
# The schema of every value

With white space anywhere between tokens, the rule for any value describes the JSON values.
-/
namespace ConstrainedDecoding.Schema

open Ebnf Computability
open Json (Value)

/-- White space around every token, and the separators of JSON. -/
def Layout.standard : Layout := .anyWhitespace "," ":"

theorem ofOptions_default : Layout.ofOptions .default = .standard := by decide

section

variable {K : Meaning} (hws : K "ws" = Json.Standard.blanks)

include hws

/-- A container with any number of items. -/
theorem language_listOf (opening closing : String) (item : List Source) :
    Source.sequenceLanguage K (Layout.standard.opening opening 0 ++
        [listOf item (Layout.standard.itemSeparator 0)] ++ Layout.standard.closing closing 0) =
      {opening.toList} * (Json.Standard.blanks + Json.Standard.blanks *
        Json.Standard.listOf Json.Standard.blanks (Source.sequenceLanguage K item) * Json.Standard.blanks) *
          {closing.toList} := by
  rw [← Json.Standard.blanks_listOf]
  simp [Layout.standard, Layout.opening, Layout.closing, Layout.itemSeparator, Layout.blanks, listOf, hws,
    Json.Standard.listOf, mul_assoc]

/-- The alternatives for any value say what the standard says of values. -/
theorem language_valueAlternatives {value string number : String} (hstring : K string = Json.Standard.string)
    (hnumber : K number = Json.Standard.number) :
    Source.choiceLanguage K (valueAlternatives .standard value string number) =
      Json.Standard.step Json.Standard.blanks (K value) := by
  have pair : Source.sequenceLanguage K ([.name string] ++ Layout.standard.keyValueSeparator ++ [.name value]) =
      (Json.Standard.Part.member).language Json.Standard.blanks (K value) := by
    simp [Layout.standard, Layout.keyValueSeparator, Layout.blanks, hws, hstring, Json.Standard.Part.language,
      mul_assoc]
  have item : Source.sequenceLanguage K [.name value] =
      (Json.Standard.Part.value).language Json.Standard.blanks (K value) := by
    simp [Json.Standard.Part.language]
  simp only [valueAlternatives, show Layout.standard.flat = .standard from rfl, Source.choiceLanguage_cons,
    Source.choiceLanguage_nil, Source.language_sequence, language_listOf hws, pair, item, Source.language_name,
    Source.language_literal, hstring, hnumber, Json.Standard.step, add_zero]
  change {['\x7b']} * _ * {['\x7d']} + ({['[']} * _ * {[']']} + _) = _
  simp only [Json.Standard.Part.language]
  ac_rfl

end

/-! ## Documents -/

section

variable {document : Value} {o : Options} {p : Progress} {root : Source} {ps : List Production}

theorem Converted.meaning_stringChar (h : Converted document o p root ps) :
    ∀ n ∈ p.stringChar, Production.meaning ps n = Json.Standard.char := by
  intro n hn
  have hmem := (h.mem _).2 (Or.inr (Or.inl (h.complete.sound.char n hn)))
  have := Production.meaning_of_mem h.wellFormed.nodup hmem
  rw [this, language_charAlternatives]

theorem Converted.meaning_anyString (h : Converted document o p root ps) :
    ∀ n ∈ p.anyString, Production.meaning ps n = Json.Standard.string := by
  intro n hn
  obtain ⟨c, hc, hmem⟩ := h.complete.string n hn
  have := Production.meaning_of_mem h.wellFormed.nodup ((h.mem _).2 (Or.inr (Or.inl hmem)))
  rw [this]
  simp [language_quotedStar (h.meaning_stringChar c hc)]

theorem Converted.meaning_ws (h : Converted document .default p root ps) :
    Production.meaning ps "ws" = Json.Standard.blanks := by
  have hmem : ⟨"ws", [whitespaceSource .default]⟩ ∈ ps := (h.mem _).2 (Or.inr (Or.inr (mem_blankProductions.2 ⟨rfl, rfl⟩)))
  have := Production.meaning_of_mem h.wellFormed.nodup hmem
  rw [this]
  simp [whitespaceSource, Options.default, Json.Standard.blanks]

/-- The rule for any value describes the JSON values. -/
theorem Converted.meaning_anyValue (h : Converted document .default p root ps) :
    ∀ n ∈ p.anyValue, Production.meaning ps n = Json.Standard.texts := by
  intro n hn
  have hvalue := h.complete.value
  rw [ofOptions_default] at hvalue
  obtain ⟨s, hs, m, hm, hmem⟩ := hvalue n hn
  have number : Production.meaning ps m = Json.Standard.number := by
    have := Production.meaning_of_mem h.wellFormed.nodup ((h.mem _).2 (Or.inr (Or.inl hm)))
    rw [this]
    simp [language_numberSource]
  have value := Production.meaning_of_mem h.wellFormed.nodup ((h.mem _).2 (Or.inr (Or.inl hmem)))
  exact Json.Standard.eq_values (value.trans
    (language_valueAlternatives h.meaning_ws (h.meaning_anyString s hs) number))

/-- A document with nothing inside has no other part. -/
theorem PartOf.eq_of_empty {v : Value} (h : PartOf document v) (hitems : ∀ items, document = .array items → items = [])
    (hmembers : ∀ members, document = .object members → members = []) : v = document := by
  induction h with
  | self => rfl
  | item _ hmem ih =>
    rw [hitems _ ih.symm] at hmem
    cases hmem
  | member _ hmem ih =>
    rw [hmembers _ ih.symm] at hmem
    cases hmem

/-- A document that any value goes with is converted. -/
theorem exists_productions_any (h : ofValue o.strict document = .any) :
    ∃ ps, productions document o = .ok ps := by
  have start : Complete document o.strict (Layout.ofOptions o) [] Conversion.start := complete_start
  obtain ⟨n, p, hrun, -⟩ := anyValue_spec start.sound start.string start.value
  refine exists_productions_of_ran (.name n) (p := p) ?_
  rw [h, toSource]
  exact Conversion.ran_bind.2 ⟨n, p, hrun, Conversion.ran_pure.2 ⟨rfl, rfl⟩⟩

end

end ConstrainedDecoding.Schema

namespace ConstrainedDecoding.Grammar

/-- A schema that any value goes with describes the JSON values, with white space around every token inside
a value. -/
theorem ofSchema_any {document : Json.Value} (hdocument : Schema.Limited document)
    (h : Schema.ofValue true document = .any) :
    ∃ g, ofSchema document .default = .ok g ∧ g.language = Utf8.encoded Json.Standard.texts := by
  obtain ⟨ps, hps⟩ : ∃ ps, Schema.productions document .default = .ok ps := Schema.exists_productions_any h
  obtain ⟨g, hg⟩ := exists_ofSchema hdocument Schema.limited_default hps
  obtain ⟨p, root, ps, hconverted, hlanguage⟩ := language_of_ofSchema hg
  refine ⟨g, hg, hlanguage.trans ?_⟩
  -- the root stands for the rule for any value
  have hsource := hconverted.source
  rw [show Schema.Options.default.strict = true from rfl, h, Schema.source?] at hsource
  obtain ⟨n, hn, rfl⟩ := Option.mem_map.1 hsource
  rw [Ebnf.Source.language_name, hconverted.meaning_anyValue n hn]

/-- The schema `true` and the schema without keywords describe the JSON values: such a text, and no
other, is accepted. -/
theorem untyped_describes_json : ∀ text ∈ ["true", "\x7b\x7d"], ∃ g, ofSchemaText text .default = .ok g ∧
    ∀ w, w ∈ g.language ↔ ∃ value ∈ Json.Standard.texts, w = Utf8.encode value := by
  have of_parse {text : String} {document : Json.Value} (hparse : Json.parse? text = some document)
      (hdocument : Schema.Limited document) (h : Schema.ofValue true document = .any) :
      ∃ g, ofSchemaText text .default = .ok g ∧
        ∀ w, w ∈ g.language ↔ ∃ value ∈ Json.Standard.texts, w = Utf8.encode value := by
    obtain ⟨g, hg, hlanguage⟩ := ofSchema_any hdocument h
    refine ⟨g, by rw [ofSchemaText, hparse]; exact hg, fun w => ?_⟩
    rw [hlanguage]
    rfl
  simp only [List.forall_mem_cons]
  refine ⟨of_parse (show Json.parse? "true" = some (.bool true) by cbv) ?_ (by rw [Schema.ofValue]),
    of_parse (show Json.parse? "\x7b\x7d" = some (.object []) by cbv) ?_ ?_, List.forall_mem_nil _⟩
  · intro members h
    cases h.eq_of_empty (by simp) (by simp)
  · intro members h key _ n hn
    cases h.eq_of_empty (by simp) (by simp)
    cases hn
  · simp [Schema.ofValue, Schema.ofMembers, Json.Value.lookup, Schema.hasKey]

/-- The schema `true`, for example. -/
theorem true_describes_json : ∃ g, ofSchemaText "true" .default = .ok g ∧
    ∀ w, w ∈ g.language ↔ ∃ value ∈ Json.Standard.texts, w = Utf8.encode value :=
  untyped_describes_json "true" List.mem_cons_self

end ConstrainedDecoding.Grammar
