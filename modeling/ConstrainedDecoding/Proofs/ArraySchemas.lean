import ConstrainedDecoding.Proofs.ObjectSchemas

/-!
# Schemas of arrays

A schema of an array describes the arrays that start with the items it lists and go on with as many further ones as its
counts leave. Only counts that are natural numbers are read; any other is overlooked.
-/
namespace ConstrainedDecoding.Schema

open Ebnf Computability
open Json (Value)

variable {strict : Bool} {members : List (String × Value)} {initial : List Value} {more : Option Value}

/-! ## Reading -/

/-- What may follow the first items of an array: no other items, or items of a schema. -/
def AllowsItems (strict : Bool) (members : List (String × Value)) : Option Value → Prop
  | none => Value.lookup "items" members = some (.bool false) ∨ Value.lookup "items" members = none ∧ strict = true
  | some v => Value.lookup "items" members = some v ∧ v ≠ .bool false ∨
      Value.lookup "items" members = none ∧ strict = false ∧ v = .bool true

/-- A schema is that of an array with schemas of its first items, and perhaps one of further items. -/
structure ArraySchema (strict : Bool) (members : List (String × Value)) (initial : List Value) (more : Option Value) :
    Prop where
  isArray : IsOfType "array" members (! hasKey members objectKeywords && hasKey members arrayKeywords)
  initial : Value.lookup "prefixItems" members = some (.array initial) ∨
    Value.lookup "prefixItems" members = none ∧ initial = []
  more : AllowsItems strict members more

theorem ofType_array (strict : Bool) (members : List (String × Value)) :
    ofType strict members "array" = ofArray strict members := by
  simp [ofType]

theorem texts_ofValue_array (h : ArraySchema strict members initial more) (l : Layout) (B : Language Char)
    (R : Ruled → Language Char) (depth : Nat) :
    texts l B R depth (ofValue strict (.object members)) = texts l B R depth (ofArray strict members) := by
  rw [ofValue_of_leading h.isArray.leading]
  rcases h.isArray.type with htype | htype | ⟨htype, hkeys⟩
  · simp [htype, ofType_array]
  · simp [htype, ofType_array, texts, textsOfEach]
  · obtain ⟨hobject, harray⟩ := Bool.and_eq_true_iff.1 hkeys
    rw [Bool.not_eq_true'] at hobject
    simp [htype, hobject, harray]

theorem ofValues_eq_map (strict : Bool) (vs : List Value) : ofValues strict vs = vs.map (ofValue strict) := by
  induction vs with
  | nil => rw [ofValues, List.map_nil]
  | cons v vs ih => rw [ofValues, ih, List.map_cons]

theorem ofArray_eq (h : ArraySchema strict members initial more) : ofArray strict members =
    match checkItems initial.length more.isSome ((naturalUnder members "minItems").getD 0)
        (naturalUnder members "maxItems") with
      | .error cause => .invalid cause
      | .ok () => .array (initial.map (ofValue strict)) (more.map (ofValue strict))
          ((naturalUnder members "minItems").getD 0) (naturalUnder members "maxItems") := by
  have hmore := h.more
  rw [ofArray]
  generalize hp : Value.lookup "prefixItems" members = p
  generalize ha : Value.lookup "items" members = a
  have hinitial : p = some (.array initial) ∨ p = none ∧ initial = [] := hp ▸ h.initial
  have hmore : (a = some (.bool false) ∨ a = none ∧ strict = true) ∧ more = none ∨
      (∃ v, a = some v ∧ v ≠ .bool false ∧ more = some v) ∨ a = none ∧ strict = false ∧ more = some (.bool true) := by
    subst ha
    cases more with
    | none => exact Or.inl ⟨hmore, rfl⟩
    | some v =>
      rcases hmore with ⟨heq, hv⟩ | ⟨heq, hstrict, rfl⟩
      · exact Or.inr (Or.inl ⟨v, heq, hv, rfl⟩)
      · exact Or.inr (Or.inr ⟨heq, hstrict, rfl⟩)
  clear hp ha h
  simp only [ofValues_eq_map]
  rcases hcheck : checkItems initial.length more.isSome ((naturalUnder members "minItems").getD 0)
      (naturalUnder members "maxItems") with cause | _ <;>
    rcases hinitial with rfl | ⟨rfl, rfl⟩ <;>
      rcases hmore with ⟨rfl | ⟨rfl, rfl⟩, rfl⟩ | ⟨_ | ⟨_ | _⟩ | _ | _ | _ | _, rfl, hv, rfl⟩ | ⟨rfl, rfl, rfl⟩ <;>
        first
        | exact absurd rfl hv
        | simp only [Option.isSome_none, Option.isSome_some, List.length_nil] at hcheck
          simp [ofValue, hcheck]

/-! ## Lengths -/

section

variable {o : Options}

/-- The number of further items is one that the counts leave. -/
theorem mem_textsOf_array (h : ArraySchema o.strict members initial more) {document : Value} {depth : Nat} {text : List Char} :
    text ∈ textsOf document o depth (.object members) ↔
      ∃ e : Nat, max 0 (((naturalUnder members "minItems").getD 0 : Int) - initial.length) ≤ e ∧
        (∀ most ∈ naturalUnder members "maxItems", (e : Int) ≤ most - initial.length) ∧ (e ≠ 0 → more.isSome) ∧
        text ∈ containerTexts (Layout.ofOptions o) o.blanks "[" "]" depth
          (initial.map (textsOf document o (depth + 1)) ++
            List.replicate e ((more.map (textsOf document o (depth + 1))).getD 0)) := by
  rw [textsOf, texts_ofValue_array h, ofArray_eq h]
  generalize (naturalUnder members "minItems").getD 0 = least
  generalize naturalUnder members "maxItems" = most
  split
  · rename_i cause hcheck
    simp only [texts]
    refine iff_of_false (Language.notMem_zero text) ?_
    rintro ⟨e, hleast, hmost, he, -⟩
    -- a number of further items that is left would put the counts in order
    have horder : ∀ m ∈ most, least ≤ m ∧ initial.length ≤ m := fun m hm => by
      have := hmost m hm
      omega
    have hnone : more.isSome = false → least ≤ initial.length := fun hnone => by
      have : e = 0 := by_contra fun hne => by simp [hnone] at he; exact hne he
      omega
    cases (checkItems_eq_ok.2 ⟨horder, hnone⟩).symm.trans hcheck
  · simp only [texts]
    rw [textsOfEach_ofValue, textsOfSome_ofValue]
    refine exists_congr fun e => ?_
    rw [List.length_map, Option.isSome_map]
    refine and_congr ?_ (and_congr ?_ Iff.rfl)
    · omega
    · exact forall₂_congr fun m _ => by omega

/-- The texts of an array are put together from its first items and so many further ones as its counts leave: not
fewer than the least number of items less the first ones, and not more than the greatest number less those. So it
may be empty exactly if no items are listed and no number of items is asked for. -/
theorem array_describes_lengths (h : ArraySchema o.strict members initial more) (document : Value) (depth : Nat) :
    ConvertsTo document o (textsOf document o 0 document) ∧
    (∀ text, text ∈ textsOf document o depth (.object members) ↔
      ∃ e : Nat, max 0 (((naturalUnder members "minItems").getD 0 : Int) - initial.length) ≤ e ∧
        (∀ most ∈ naturalUnder members "maxItems", (e : Int) ≤ most - initial.length) ∧ (e ≠ 0 → more.isSome) ∧
        text ∈ containerTexts (Layout.ofOptions o) o.blanks "[" "]" depth
          (initial.map (textsOf document o (depth + 1)) ++
            List.replicate e ((more.map (textsOf document o (depth + 1))).getD 0))) ∧
    ∀ text ∈ containerTexts (Layout.ofOptions o) o.blanks "[" "]" depth [],
      text ∈ textsOf document o depth (.object members) ↔
        initial = [] ∧ (naturalUnder members "minItems").getD 0 = 0 := by
  refine ⟨convertsTo_textsOf document o, fun _ => mem_textsOf_array h, fun text hempty => ?_⟩
  rw [mem_textsOf_array h]
  constructor
  · rintro ⟨e, hleast, -, -, htext⟩
    obtain ⟨rfl, rfl⟩ := nothing_chosen_of_empty o.blanks_le (textsOf_le_visible document o _)
      (Option.forall_mem_map.2 fun v _ => textsOf_le_visible document o _ v) htext hempty
    exact ⟨rfl, by simpa using hleast⟩
  · rintro ⟨rfl, hleast⟩
    exact ⟨0, by simp [hleast], by simp, fun h => absurd rfl h, hempty⟩

/-! ## Items without a choice -/

/-- A schema of arrays whose items can be null only. -/
def nullArray (keywords : List (String × Value)) : List (String × Value) :=
  ("type", .string "array") :: ("items", .object [("type", .string "null")]) :: keywords

/-- An array whose items can be null only is converted. -/
theorem exists_productions_nullArray {keywords : List (String × Value)} {least : Nat} {most : Option Nat}
    (h : ArraySchema o.strict (nullArray keywords) [] (some (.object [("type", .string "null")])))
    (hleast : (naturalUnder (nullArray keywords) "minItems").getD 0 = least)
    (hmost : naturalUnder (nullArray keywords) "maxItems" = most) (hcheck : checkItems 0 true least most = .ok ())
    (hsome : most ≠ some 0) : ∃ ps, productions (.object (nullArray keywords)) o = .ok ps := by
  refine exists_productions_of_ran (p := Conversion.start)
    (arraySource (Layout.ofOptions o) 0 [] (some (.literal "null")) least most) ?_
  rw [ofValue_of_leading h.isArray.leading, show Value.lookup "type" (nullArray keywords) = some (.string "array") from rfl]
  simp only [ofType_array]
  rw [ofArray_eq h, hleast, hmost, List.length_nil, Option.isSome_some, hcheck]
  simp only [Option.map_some, ofValue_null, List.map_nil, List.length_nil, Nat.sub_zero, Option.map_id', toSource,
    toAlternatives, toOptional, pure_bind, if_neg hsome]
  exact Conversion.ran_pure.2 ⟨rfl, rfl⟩

/-- The text without white space of an array with nulls. -/
def nullItems (n : Nat) : List Char :=
  "[".toList ++ ((List.replicate n "null".toList).intersperse ",".toList).flatten ++ "]".toList

theorem nullItems_mem (document : Value) (depth n : Nat) : nullItems n ∈
    containerTexts (Layout.ofOptions .default) Options.default.blanks "[" "]" depth
      (List.replicate n (textsOf document .default (depth + 1) (.object [("type", .string "null")]))) := by
  rw [ofOptions_default]
  refine compact_mem_containerTexts (nil_mem_blanks _) ?_
  rw [textsOf_null]
  induction n with
  | zero => exact .nil
  | succ n ih => exact .cons rfl ih

/-- Two to three nulls, for example. -/
theorem two_items_described :
    ∃ ps, productions (.object (nullArray [("minItems", .number (.int 2)), ("maxItems", .number (.int 3))])) .default = .ok ps ∧
      "[null,null]".toList ∈ Production.meaning ps "root" ∧ "[]".toList ∉ Production.meaning ps "root" := by
  let members := nullArray [("minItems", .number (.int 2)), ("maxItems", .number (.int 3))]
  have h : ArraySchema true members [] (some (.object [("type", .string "null")])) :=
    ⟨⟨by decide, Or.inl rfl⟩, Or.inr ⟨rfl, rfl⟩, Or.inl ⟨rfl, by simp⟩⟩
  have hmost : naturalUnder members "maxItems" = some 3 := rfl
  have two : "[null,null]".toList = nullItems 2 := by cbv
  have none : "[]".toList = nullItems 0 := by cbv
  obtain ⟨ps, hps⟩ := exists_productions_nullArray (o := .default) h rfl hmost rfl (by simp)
  obtain ⟨hmeaning, hlengths, hempty⟩ := array_describes_lengths (o := .default) h (.object members) 0
  refine ⟨ps, hps, ?_, ?_⟩
  · rw [hmeaning.productions ps hps, hlengths, two, hmost]
    exact ⟨2, by decide, by simp, fun _ => rfl, nullItems_mem (.object members) 0 2⟩
  · rw [hmeaning.productions ps hps, none, hempty _ (nullItems_mem (.object members) 0 0)]
    exact fun h => absurd h.2 (by decide)

end

end ConstrainedDecoding.Schema

namespace ConstrainedDecoding.Grammar

open Schema
open Json (Value)

/-- A greatest number of items that is negative is overlooked, so an array with one item is described, though no number
of items is left. -/
theorem one_item_described_despite_negative_bound :
    ∃ g, ofSchemaText "\x7b\"type\":\"array\",\"items\":\x7b\"type\":\"null\"\x7d,\"maxItems\":-1\x7d" .default = .ok g ∧
      Utf8.ofString "[null]" ∈ g.language ∧ Json.parse? "[null]" = some (.array [.null]) ∧
        ¬ ∃ e : Nat, (e : Int) ≤ -1 - ([] : List Value).length := by
  let members := nullArray [("maxItems", .number (.int (-1)))]
  have hparse : Json.parse? "\x7b\"type\":\"array\",\"items\":\x7b\"type\":\"null\"\x7d,\"maxItems\":-1\x7d" =
      some (.object members) := by cbv
  have h : ArraySchema true members [] (some (.object [("type", .string "null")])) :=
    ⟨⟨by decide, Or.inl rfl⟩, Or.inr ⟨rfl, rfl⟩, Or.inl ⟨rfl, by simp⟩⟩
  have one : "[null]".toList = nullItems 1 := by cbv
  have hmost : naturalUnder members "maxItems" = none := rfl
  obtain ⟨ps, hps⟩ := exists_productions_nullArray (o := .default) h rfl hmost rfl (by simp)
  obtain ⟨g, hg⟩ := exists_ofSchema (limited_of_small (by decide)) limited_default hps
  refine ⟨g, by rw [ofSchemaText, hparse]; exact hg, ?_, by cbv, by simp; omega⟩
  rw [language_eq_textsOf hg, Utf8.ofString, Utf8.encode_mem_encoded, one, mem_textsOf_array (o := .default) h]
  exact ⟨1, by decide, by simp [hmost], fun _ => rfl, nullItems_mem (.object members) 0 1⟩

end ConstrainedDecoding.Grammar
