import ConstrainedDecoding.Proofs.SchemaMeanings
import ConstrainedDecoding.Proofs.VisibleTexts

/-!
# Schemas of objects

A schema of an object describes the objects whose members are selected: declared ones in their order, with all that
are required, and then any number of extra ones. An upper bound on the number of members is not part of that.
-/
namespace ConstrainedDecoding.Schema

open Ebnf Computability
open Json (Value)

variable {strict : Bool} {members properties : List (String × Value)} {required : List String} {additional : Option Value}

/-! ## Schemas with a type -/

/-- The keywords that come before the type of a schema. -/
def leadingKeywords : List String := ["$ref", "const", "enum", "anyOf", "oneOf", "allOf"]

/-- The keywords that tell an object without a type. -/
def objectKeywords : List String :=
  ["properties", "required", "additionalProperties", "maxProperties", "minProperties"]

/-- The keywords that tell an array without a type. -/
def arrayKeywords : List String := ["items", "prefixItems", "minItems", "maxItems"]

/-- Without the leading keywords a schema is read by its type, or else by the keywords of the types. -/
theorem ofValue_of_leading (hleading : ∀ key ∈ leadingKeywords, Value.lookup key members = none) :
    ofValue strict (.object members) = match Value.lookup "type" members with
      | some (.string name) => ofType strict members name
      | some (.array []) => .invalid .typeEmpty
      | some (.array names) => .types (names.map fun
        | .string name => ofType strict members name
        | _ => .invalid .typeEntry)
      | some other => .invalid (.typeValue other)
      | none =>
        if hasKey members objectKeywords then ofObject strict members
        else if hasKey members arrayKeywords then ofArray strict members
        else if hasKey members ["pattern", "minLength", "maxLength", "format"] then ofString members
        else if hasKey members ["minimum", "maximum", "exclusiveMinimum", "exclusiveMaximum"] then
          ofBounds members false
        else .any := by
  simp only [leadingKeywords, List.forall_mem_cons] at hleading
  obtain ⟨href, hconst, henum, hanyOf, honeOf, hallOf, -⟩ := hleading
  rw [ofValue, ofMembers]
  simp only [href, hconst, henum]
  split <;> rename_i heq <;> cases hanyOf.symm.trans heq
  split <;> rename_i heq <;> cases honeOf.symm.trans heq
  split <;> rename_i heq <;> cases hallOf.symm.trans heq
  rfl

/-- A schema is that of a type: by its name, alone or in a list, or without a name by keywords of the type. -/
structure IsOfType (name : String) (members : List (String × Value)) (keywords : Bool) : Prop where
  leading : ∀ key ∈ leadingKeywords, Value.lookup key members = none
  type : Value.lookup "type" members = some (.string name) ∨
    Value.lookup "type" members = some (.array [.string name]) ∨ Value.lookup "type" members = none ∧ keywords = true

/-- A schema is that of an object. -/
abbrev IsObject (members : List (String × Value)) : Prop := IsOfType "object" members (hasKey members objectKeywords)

theorem ofType_object (strict : Bool) (members : List (String × Value)) :
    ofType strict members "object" = ofObject strict members := by
  simp [ofType]

theorem texts_ofValue_object (h : IsObject members) (l : Layout) (B : Language Char) (R : Ruled → Language Char)
    (depth : Nat) : texts l B R depth (ofValue strict (.object members)) = texts l B R depth (ofObject strict members) := by
  rw [ofValue_of_leading h.leading]
  rcases h.type with htype | htype | ⟨htype, hkeys⟩
  · simp [htype, ofType_object]
  · simp [htype, ofType_object, texts, textsOfEach]
  · simp [htype, hkeys]

/-- What may follow the properties of a schema: no other members, or members with values of a schema. -/
def Allows (strict : Bool) (members : List (String × Value)) : Option Value → Prop
  | none => Value.lookup "additionalProperties" members = some (.bool false) ∨
      Value.lookup "additionalProperties" members = none ∧ strict = true
  | some v => Value.lookup "additionalProperties" members = some v ∧ (v = .bool true ∨ ∃ ms, v = .object ms) ∨
      Value.lookup "additionalProperties" members = none ∧ strict = false ∧ v = .bool true

/-- A schema is that of an object with properties, required keys and perhaps a schema for other members. -/
structure ObjectSchema (strict : Bool) (members properties : List (String × Value)) (required : List String)
    (additional : Option Value) : Prop where
  isObject : IsObject members
  properties : Value.lookup "properties" members = some (.object properties) ∨
    Value.lookup "properties" members = none ∧ properties = []
  required : Value.lookup "required" members = some (.array (required.map .string)) ∨
    Value.lookup "required" members = none ∧ required = []
  additional : Allows strict members additional

theorem requiredKeys_eq (h : ObjectSchema strict members properties required additional) :
    requiredKeys members = .ok required := by
  unfold requiredKeys
  rcases h.required with hrequired | ⟨hrequired, rfl⟩
  · rw [hrequired]
    simp only
    clear h hrequired
    induction required with
    | nil => rfl
    | cons k required ih =>
      rw [List.map_cons, List.mapM_cons, ih]
      rfl
  · rw [hrequired]

theorem ofProperties_eq_map (strict : Bool) (properties : List (String × Value)) :
    ofProperties strict properties = properties.map fun m => (m.1, ofValue strict m.2) := by
  induction properties with
  | nil => rw [ofProperties, List.map_nil]
  | cons m properties ih =>
    obtain ⟨k, v⟩ := m
    rw [ofProperties, ih, List.map_cons]

theorem ofObject_eq (h : ObjectSchema strict members properties required additional) :
    ofObject strict members = match checkProperties members required.length with
      | .error cause => .invalid cause
      | .ok true => .emptyObject
      | .ok false => .object (properties.map fun m => (m.1, ofValue strict m.2)) required
          (additional.map (ofValue strict)) ((naturalUnder members "minProperties").getD 0 = 0) := by
  have hrequired := requiredKeys_eq h
  have hadditional := h.additional
  rw [← ofProperties_eq_map]
  rw [ofObject, hrequired]
  generalize hp : Value.lookup "properties" members = p
  generalize ha : Value.lookup "additionalProperties" members = a
  have hproperties : p = some (.object properties) ∨ p = none ∧ properties = [] := hp ▸ h.properties
  have hadditional : (a = some (.bool false) ∨ a = none ∧ strict = true) ∧ additional = none ∨
      (∃ v, a = some v ∧ (v = .bool true ∨ ∃ ms, v = .object ms) ∧ additional = some v) ∨
      a = none ∧ strict = false ∧ additional = some (.bool true) := by
    subst ha
    cases additional with
    | none => exact Or.inl ⟨hadditional, rfl⟩
    | some v =>
      rcases hadditional with ⟨heq, hv⟩ | ⟨heq, hstrict, rfl⟩
      · exact Or.inr (Or.inl ⟨v, heq, hv, rfl⟩)
      · exact Or.inr (Or.inr ⟨heq, hstrict, rfl⟩)
  clear hp ha
  simp only [bind, Except.bind, pure, Except.pure]
  rcases hproperties with rfl | ⟨rfl, rfl⟩ <;>
    rcases hadditional with ⟨rfl | ⟨rfl, rfl⟩, rfl⟩ | ⟨v, rfl, rfl | ⟨ms, rfl⟩, rfl⟩ | ⟨rfl, rfl, rfl⟩ <;>
      rcases checkProperties members required.length with cause | _ | _ <;>
        simp [ofProperties, ofValue]

/-! ## Members -/

section

variable (document : Value) (o : Options) (depth : Nat)

/-- The texts of a declared member of an object at a level. -/
def declaredMember (m : String × Value) : Language Char :=
  memberTexts (Layout.ofOptions o) o.blanks (keyTexts m.1) (textsOf document o (depth + 1) m.2)

/-- The texts of a member of an object at a level that has any key, and a value of a schema. -/
def extraMember (schema : Value) : Language Char :=
  memberTexts (Layout.ofOptions o) o.blanks Json.Standard.string (textsOf document o (depth + 1) schema)

end

/-- The members that an object names: the declared ones, and with any value those that are only required. -/
def namedMembers (properties : List (String × Value)) (required : List String) : List (String × Value) :=
  properties ++ (required.filter fun k => ! properties.any (·.1 == k)).map (·, .bool true)

theorem namedMembers_of_declared (h : ∀ k ∈ required, ∃ m ∈ properties, m.1 = k) :
    namedMembers properties required = properties := by
  have : required.filter (fun k => ! properties.any (·.1 == k)) = [] := by
    rw [List.filter_eq_nil_iff]
    intro k hk
    obtain ⟨m, hm, rfl⟩ := h k hk
    simpa using ⟨m.2, hm⟩
  rw [namedMembers, this, List.map_nil, List.append_nil]

/-- The texts of objects whose members are selected, whatever their number: some of those that are named, in their
order and with all that are required, and then any number of extra ones. -/
def selectionTexts (document : Value) (o : Options) (depth : Nat) (properties : List (String × Value))
    (required : List String) (additional : Option Value) (mayBeEmpty : Bool) : Language Char :=
  {text | ∃ (chosen : List (String × Value)) (n : Nat), chosen.Sublist (namedMembers properties required) ∧
    chosen.filter (required.contains ·.1) = (namedMembers properties required).filter (required.contains ·.1) ∧
    (n ≠ 0 → additional.isSome) ∧
    (chosen = [] ∧ n = 0 → mayBeEmpty = true ∨ namedMembers properties required = [] ∧ additional = none) ∧
    text ∈ containerTexts (Layout.ofOptions o) o.blanks "\x7b" "\x7d" depth
      (chosen.map (declaredMember document o depth) ++
        List.replicate n ((additional.map (extraMember document o depth)).getD 0))}

section

variable {document : Value} {o : Options} {depth : Nat}

theorem textsOf_any : textsOf document o depth (.bool true) =
    rules document o.strict (Layout.ofOptions o) o.blanks .value := by
  simp [textsOf, ofValue, texts]

theorem declaredTexts_ofValue (required : List String) (properties : List (String × Value)) :
    declaredTexts (Layout.ofOptions o) o.blanks (rules document o.strict (Layout.ofOptions o) o.blanks) (depth + 1) required
      (properties.map fun m => (m.1, ofValue o.strict m.2)) =
        properties.map fun m => (declaredMember document o depth m, required.contains m.1) := by
  induction properties with
  | nil => rfl
  | cons m properties ih =>
    rw [List.map_cons, declaredTexts, ih, List.map_cons]
    rfl

theorem objectTexts_eq_selectionTexts (mayBeEmpty : Bool) :
    objectTexts (Layout.ofOptions o) o.blanks depth
      ((namedMembers properties required).map fun m => (declaredMember document o depth m, required.contains m.1))
      (additional.map (extraMember document o depth)) mayBeEmpty =
        selectionTexts document o depth properties required additional mayBeEmpty := by
  have empty (chosen : List (String × Value)) (n : Nat) (L : Language Char) :
      chosen.map (declaredMember document o depth) ++ List.replicate n L = [] ↔ chosen = [] ∧ n = 0 := by
    simp
  ext text
  constructor
  · rintro ⟨parts, hpicked, hempty, htext⟩
    obtain ⟨chosen, n, hsub, hall, hn, rfl⟩ := picked_map.1 hpicked
    rw [empty] at hempty
    exact ⟨chosen, n, hsub, hall, by simpa using hn, by simpa using hempty, htext⟩
  · rintro ⟨chosen, n, hsub, hall, hn, hempty, htext⟩
    refine ⟨_, picked_map.2 ⟨chosen, n, hsub, hall, by simpa using hn, rfl⟩, ?_, htext⟩
    rw [empty]
    simpa using hempty

/-- An object whose property counts are in order has any selection of members. -/
theorem textsOf_object (h : ObjectSchema o.strict members properties required additional)
    (hcheck : checkProperties members required.length = .ok false) :
    textsOf document o depth (.object members) =
      selectionTexts document o depth properties required additional ((naturalUnder members "minProperties").getD 0 = 0) := by
  have undeclared : (required.filter fun k => ! properties.any (·.1 == k)).map (fun k =>
      (memberTexts (Layout.ofOptions o) o.blanks (keyTexts k)
        (rules document o.strict (Layout.ofOptions o) o.blanks .value), true)) =
      ((required.filter fun k => ! properties.any (·.1 == k)).map (·, Value.bool true)).map fun m =>
        (declaredMember document o depth m, required.contains m.1) := by
    rw [List.map_map]
    refine List.map_congr_left fun k hk => ?_
    simp [declaredMember, textsOf_any, (List.mem_filter.1 hk).1]
  have extra : (textsOfSome (Layout.ofOptions o) o.blanks (rules document o.strict (Layout.ofOptions o) o.blanks) (depth + 1)
      (additional.map (ofValue o.strict))).map (memberTexts (Layout.ofOptions o) o.blanks
        (rules document o.strict (Layout.ofOptions o) o.blanks .string)) =
      additional.map (extraMember document o depth) := by
    rw [textsOfSome_ofValue, Option.map_map, rules_string]
    rfl
  have names : (fun k => ! (properties.map fun m => (m.1, ofValue o.strict m.2)).any (·.1 == k)) =
      fun k => ! properties.any (·.1 == k) := by
    funext k
    rw [List.any_map]
    rfl
  rw [textsOf, texts_ofValue_object h.isObject, ofObject_eq h, hcheck]
  simp only [texts]
  rw [declaredTexts_ofValue, names, undeclared, extra, ← List.map_append]
  exact objectTexts_eq_selectionTexts _

theorem textsOf_object_empty (h : ObjectSchema o.strict members properties required additional)
    (hcheck : checkProperties members required.length = .ok true) : textsOf document o depth (.object members) =
      containerTexts (Layout.ofOptions o) o.blanks "\x7b" "\x7d" depth [] := by
  rw [textsOf, texts_ofValue_object h.isObject, ofObject_eq h, hcheck]
  simp only [texts]

theorem textsOf_object_invalid (h : ObjectSchema o.strict members properties required additional) {cause : Cause}
    (hcheck : checkProperties members required.length = .error cause) : textsOf document o depth (.object members) = 0 := by
  rw [textsOf, texts_ofValue_object h.isObject, ofObject_eq h, hcheck]
  simp only [texts]

/-! ## Selections -/

theorem declaredMember_le_visible (m : String × Value) : declaredMember document o depth m ≤ visible :=
  mul_le_visible (mul_le_visible (singleton_le_visible (show '"' ∈ (Json.stringText m.1).toList by
    simp [Json.toList_stringText]) (by simp [blankChars])))

theorem extraMember_le_visible (schema : Value) : extraMember document o depth schema ≤ visible :=
  mul_le_visible (mul_le_visible (quoted_le_visible _))

theorem mem_textsOf_object (h : ObjectSchema o.strict members properties required additional)
    (hdistinct : (properties.map (·.1)).Nodup) (hdeclared : ∀ k ∈ required, ∃ m ∈ properties, m.1 = k)
    (hleast : Value.lookup "minProperties" members = none) (hmost : Value.lookup "maxProperties" members = none)
    {text : List Char} : text ∈ textsOf document o depth (.object members) ↔
      ∃ (chosen : List (String × Value)) (n : Nat), chosen.Sublist properties ∧
        (∀ m ∈ properties, m.1 ∈ required → m ∈ chosen) ∧ (n ≠ 0 → additional.isSome) ∧
        text ∈ containerTexts (Layout.ofOptions o) o.blanks "\x7b" "\x7d" depth
          (chosen.map (declaredMember document o depth) ++
            List.replicate n ((additional.map (extraMember document o depth)).getD 0)) := by
  have hcheck : checkProperties members required.length = .ok false := by
    rw [checkProperties, naturalUnder, hmost]
    rfl
  rw [textsOf_object h hcheck, selectionTexts, namedMembers_of_declared hdeclared]
  refine exists_congr fun chosen => exists_congr fun n => and_congr_right fun hsub => ?_
  rw [filter_eq_filter_iff hsub hdistinct.of_map]
  simp [naturalUnder, hleast]

/-- The texts of an object are put together from members: declared ones that are chosen in their order, with all
that are required, and then, if others are allowed, any number of extra ones. So it may be empty exactly if
nothing is required. -/
theorem object_describes_selections (h : ObjectSchema o.strict members properties required additional)
    (hdistinct : (properties.map (·.1)).Nodup) (hdeclared : ∀ k ∈ required, ∃ m ∈ properties, m.1 = k)
    (hleast : Value.lookup "minProperties" members = none) (hmost : Value.lookup "maxProperties" members = none)
    (document : Value) (depth : Nat) :
    ConvertsTo document o (textsOf document o 0 document) ∧
    (∀ text, text ∈ textsOf document o depth (.object members) ↔
      ∃ (chosen : List (String × Value)) (n : Nat), chosen.Sublist properties ∧
        (∀ m ∈ properties, m.1 ∈ required → m ∈ chosen) ∧ (n ≠ 0 → additional.isSome) ∧
        text ∈ containerTexts (Layout.ofOptions o) o.blanks "\x7b" "\x7d" depth
          (chosen.map (declaredMember document o depth) ++
            List.replicate n ((additional.map (extraMember document o depth)).getD 0))) ∧
    ∀ text ∈ containerTexts (Layout.ofOptions o) o.blanks "\x7b" "\x7d" depth [],
      text ∈ textsOf document o depth (.object members) ↔ required = [] := by
  refine ⟨convertsTo_textsOf document o, fun _ => mem_textsOf_object h hdistinct hdeclared hleast hmost, fun text hempty => ?_⟩
  rw [mem_textsOf_object h hdistinct hdeclared hleast hmost]
  constructor
  · rintro ⟨chosen, n, -, hall, -, htext⟩
    obtain ⟨rfl, -⟩ := nothing_chosen_of_empty o.blanks_le declaredMember_le_visible
      (Option.forall_mem_map.2 fun schema _ => extraMember_le_visible schema) htext hempty
    refine List.eq_nil_iff_forall_not_mem.2 fun k hk => ?_
    obtain ⟨m, hm, rfl⟩ := hdeclared k hk
    exact List.not_mem_nil (hall m hm hk)
  · rintro rfl
    exact ⟨[], 0, List.nil_sublist _, fun m _ hm => absurd hm List.not_mem_nil, fun h => absurd rfl h, hempty⟩

/-! ## Properties without a choice -/

/-- Properties that can be null only. -/
def nulls (keys : List String) : List (String × Value) := keys.map fun k => (k, .object [("type", .string "null")])

theorem ofValue_nulls (strict : Bool) (keys : List String) :
    (nulls keys).map (fun m => (m.1, ofValue strict m.2)) = keys.map (·, .null) := by
  rw [nulls, List.map_map]
  exact List.map_congr_left fun k _ => congrArg _ (ofValue_null strict)

theorem ran_toMembers_nulls (l : Layout) (follow : String → Nat → Conversion Source) (p : Progress) (depth : Nat)
    (path : String) (required keys : List String) :
    ∃ members, Conversion.Ran (toMembers l follow depth path required (keys.map (·, .null))) p members p := by
  induction keys with
  | nil => exact ⟨[], Conversion.ran_pure.2 ⟨rfl, rfl⟩⟩
  | cons k keys ih =>
    obtain ⟨members, h⟩ := ih
    rw [List.map_cons, toMembers, toSource]
    simp only [pure_bind, Conversion.ran_bind, Conversion.ran_pure]
    exact ⟨_, _, _, h, rfl, rfl⟩

/-- An object whose properties can be null only is converted. -/
theorem exists_productions_nulls {keys : List String} (h : ObjectSchema o.strict members (nulls keys) required none)
    (htype : Value.lookup "type" members = some (.string "object")) (hdeclared : ∀ k ∈ required, k ∈ keys)
    (hcheck : checkProperties members required.length = .ok false) : ∃ ps, productions (.object members) o = .ok ps := by
  have undeclared : (required.filter fun k => ! (keys.map (·, Schema.null)).any (·.1 == k)) = [] := by
    rw [List.filter_eq_nil_iff]
    intro k hk
    simpa using hdeclared k hk
  let l := Layout.ofOptions o
  obtain ⟨declared, hran⟩ := ran_toMembers_nulls l
    (follow (.object members) o.strict l (countReferences (.object members) + 1)) Conversion.start 1
    ("#" ++ "/properties/") required keys
  refine exists_productions_of_ran (p := Conversion.start) (objectSource l 0 declared none
    ((naturalUnder members "minProperties").getD 0 = 0)) ?_
  rw [ofValue_of_leading h.isObject.leading, htype]
  simp only [ofType_object]
  rw [ofObject_eq h, hcheck, ofValue_nulls]
  simp only [Option.map_none, toSource, undeclared, List.mapM_nil, Conversion.ran_bind, Conversion.ran_pure]
  exact ⟨declared, _, hran, [], _, ⟨rfl, rfl⟩, none, _, ⟨rfl, rfl⟩, by rw [List.append_nil], rfl⟩

/-- The text of a member that is null. -/
def nullMember (key : String) : List Char := (Json.stringText key).toList ++ ":null".toList

theorem nullMember_mem (document : Value) (depth : Nat) (key : String) :
    nullMember key ∈ declaredMember document .default depth (key, .object [("type", .string "null")]) := by
  have separator : laid Options.default.blanks (Layout.ofOptions .default).keyValueSeparator =
      Options.default.blanks * ({":".toList} * Options.default.blanks) := by
    simp [ofOptions_default, Layout.standard, laid, Layout.keyValueSeparator, Layout.blanks]
  rw [declaredMember, textsOf_null, memberTexts, separator]
  refine ⟨_, ⟨_, rfl, ":".toList, ?_, rfl⟩, _, rfl, by simp [nullMember]⟩
  exact ⟨[], nil_mem_blanks _, _, ⟨_, rfl, [], nil_mem_blanks _, rfl⟩, by simp⟩

/-- The text without white space of an object whose members are null. -/
def nullText (keys : List String) : List Char :=
  "\x7b".toList ++ ((keys.map nullMember).intersperse ",".toList).flatten ++ "\x7d".toList

theorem nullText_mem (document : Value) (depth : Nat) (keys : List String) : nullText keys ∈
    containerTexts (Layout.ofOptions .default) Options.default.blanks "\x7b" "\x7d" depth
      ((nulls keys).map (declaredMember document .default depth)) := by
  rw [ofOptions_default]
  refine compact_mem_containerTexts (nil_mem_blanks _) ?_
  rw [nulls, List.map_map, List.forall₂_map_left_iff, List.forall₂_map_right_iff, List.forall₂_same]
  exact fun key _ => nullMember_mem document depth key

/-- A schema of objects whose properties can be null only. -/
def nullObject (keys : List String) (keywords : List (String × Value)) : List (String × Value) :=
  ("type", .string "object") :: ("properties", .object (nulls keys)) :: keywords

/-- Of two properties the one that is required may be there alone, for example. -/
theorem required_member_described :
    ∃ ps, productions (.object (nullObject ["a", "b"] [("required", .array [.string "b"])])) .default = .ok ps ∧
      "\x7b\"b\":null\x7d".toList ∈ Production.meaning ps "root" ∧
        "\x7b\x7d".toList ∉ Production.meaning ps "root" := by
  let members := nullObject ["a", "b"] [("required", .array [.string "b"])]
  have h : ObjectSchema true members (nulls ["a", "b"]) ["b"] none :=
    ⟨⟨by decide, Or.inl rfl⟩, Or.inl rfl, Or.inl rfl, Or.inr ⟨rfl, rfl⟩⟩
  have one : "\x7b\"b\":null\x7d".toList = nullText ["b"] := by cbv
  have empty : "\x7b\x7d".toList = nullText [] := by cbv
  obtain ⟨ps, hps⟩ := exists_productions_nulls (o := .default) h rfl (by simp) rfl
  obtain ⟨hmeaning, hselections, hempty⟩ := object_describes_selections (o := .default)
    h (by decide) (by decide) rfl rfl (.object members) 0
  refine ⟨ps, hps, ?_, ?_⟩
  · rw [hmeaning.productions ps hps, hselections, one]
    exact ⟨nulls ["b"], 0, List.Sublist.map _ (by decide), by simp [nulls], fun h => absurd rfl h, nullText_mem _ _ ["b"]⟩
  · rw [hmeaning.productions ps hps, empty, hempty _ (nullText_mem (.object members) 0 [])]
    exact List.cons_ne_nil _ _

/-! ## Bounds on the number of members -/

theorem mem_textsOf_object_of_most {most : Nat} (h : ObjectSchema o.strict members properties required additional)
    (hmost : naturalUnder members "maxProperties" = some most) {text : List Char} :
    text ∈ textsOf document o depth (.object members) ↔
      (naturalUnder members "minProperties").getD 0 ≤ most ∧ required.length ≤ most ∧
        if most = 0 then text ∈ containerTexts (Layout.ofOptions o) o.blanks "\x7b" "\x7d" depth []
        else text ∈ selectionTexts document o depth properties required additional
          ((naturalUnder members "minProperties").getD 0 = 0) := by
  by_cases hleast : most < (naturalUnder members "minProperties").getD 0
  · have hcheck : checkProperties members required.length = .error .propertiesOrder := by
      simp only [checkProperties, hmost, if_pos hleast]
    rw [textsOf_object_invalid h hcheck]
    exact iff_of_false (Language.notMem_zero text) fun h' => absurd h'.1 (Nat.not_le.2 hleast)
  by_cases hrequired : most < required.length
  · have hcheck : checkProperties members required.length = .error .requiredTooMany := by
      simp only [checkProperties, hmost, if_neg hleast, if_pos hrequired]
    rw [textsOf_object_invalid h hcheck]
    exact iff_of_false (Language.notMem_zero text) fun h' => absurd h'.2.1 (Nat.not_le.2 hrequired)
  have hcheck : checkProperties members required.length = .ok (most = 0) := by
    simp only [checkProperties, hmost, if_neg hleast, if_neg hrequired]
  rw [Nat.not_lt] at hleast hrequired
  simp only [hleast, hrequired, true_and]
  split
  · rename_i hzero
    rw [textsOf_object_empty h (by rw [hcheck, decide_eq_true hzero])]
  · rename_i hpos
    rw [textsOf_object h (by rw [hcheck, decide_eq_false hpos])]

/-- An upper bound on the number of members is only compared with the lower bound and the number of required keys,
and if it is zero, an object has to be empty. Any other bound leaves out no selection of members. So it is kept
where no more members are named and extra ones are excluded. -/
theorem maxProperties_compared_only {most : Nat} (h : ObjectSchema o.strict members properties required additional)
    (hmost : naturalUnder members "maxProperties" = some most) (document : Value) (depth : Nat) :
    ConvertsTo document o (textsOf document o 0 document) ∧
    (∀ text, text ∈ textsOf document o depth (.object members) ↔
      (naturalUnder members "minProperties").getD 0 ≤ most ∧ required.length ≤ most ∧
        if most = 0 then text ∈ containerTexts (Layout.ofOptions o) o.blanks "\x7b" "\x7d" depth []
        else text ∈ selectionTexts document o depth properties required additional
          ((naturalUnder members "minProperties").getD 0 = 0)) ∧
    (additional = none → (namedMembers properties required).length ≤ most →
      ∀ text ∈ textsOf document o depth (.object members), ∃ chosen : List (String × Value),
        chosen.Sublist (namedMembers properties required) ∧ chosen.length ≤ most ∧
          text ∈ containerTexts (Layout.ofOptions o) o.blanks "\x7b" "\x7d" depth
            (chosen.map (declaredMember document o depth))) := by
  refine ⟨convertsTo_textsOf document o, fun _ => mem_textsOf_object_of_most h hmost, ?_⟩
  rintro rfl hlength text htext
  obtain ⟨-, -, htext⟩ := (mem_textsOf_object_of_most h hmost).1 htext
  split at htext
  · exact ⟨[], List.nil_sublist _, Nat.zero_le _, htext⟩
  · obtain ⟨chosen, n, hsub, -, hn, -, htext⟩ := htext
    obtain rfl : n = 0 := by_contra fun hne => absurd (hn hne) Bool.false_ne_true
    exact ⟨chosen, hsub, hsub.length_le.trans hlength, by simpa using htext⟩

/-- Two properties and a bound of two, for example. -/
theorem two_members_kept :
    ∃ ps, productions (.object (nullObject ["a", "b"] [("maxProperties", .number (.int 2))])) .default = .ok ps ∧
      ∀ text ∈ Production.meaning ps "root", ∃ chosen : List (String × Value), chosen.length ≤ 2 ∧
        text ∈ containerTexts (Layout.ofOptions .default) Options.default.blanks "\x7b" "\x7d" 0 (chosen.map
          (declaredMember (.object (nullObject ["a", "b"] [("maxProperties", .number (.int 2))])) .default 0)) := by
  let members := nullObject ["a", "b"] [("maxProperties", .number (.int 2))]
  have h : ObjectSchema true members (nulls ["a", "b"]) [] none :=
    ⟨⟨by decide, Or.inl rfl⟩, Or.inl rfl, Or.inr ⟨rfl, rfl⟩, Or.inr ⟨rfl, rfl⟩⟩
  obtain ⟨ps, hps⟩ := exists_productions_nulls (o := .default) h rfl (by simp) rfl
  obtain ⟨hmeaning, -, hkept⟩ := maxProperties_compared_only (o := .default) h
    (show naturalUnder members "maxProperties" = some 2 from rfl) (.object members) 0
  refine ⟨ps, hps, fun text htext => ?_⟩
  rw [hmeaning.productions ps hps] at htext
  obtain ⟨chosen, -, hlength, htext⟩ := hkept rfl le_rfl text htext
  exact ⟨chosen, hlength, htext⟩

end

end ConstrainedDecoding.Schema

namespace ConstrainedDecoding.Grammar

open Schema
open Json (Value)

/-- With a bound of one, an object with two members is described. -/
theorem two_members_described_despite_bound :
    ∃ g, ofSchemaText ("\x7b\"type\":\"object\",\"properties\":\x7b\"a\":\x7b\"type\":\"null\"\x7d," ++
          "\"b\":\x7b\"type\":\"null\"\x7d\x7d,\"maxProperties\":1\x7d") .default = .ok g ∧
      Utf8.ofString "\x7b\"a\":null,\"b\":null\x7d" ∈ g.language ∧
      Json.parse? "\x7b\"a\":null,\"b\":null\x7d" = some (.object [("a", .null), ("b", .null)]) := by
  let members := nullObject ["a", "b"] [("maxProperties", .number (.int 1))]
  have hparse : Json.parse? ("\x7b\"type\":\"object\",\"properties\":\x7b\"a\":\x7b\"type\":\"null\"\x7d," ++
      "\"b\":\x7b\"type\":\"null\"\x7d\x7d,\"maxProperties\":1\x7d") = some (.object members) := by cbv
  have h : ObjectSchema true members (nulls ["a", "b"]) [] none :=
    ⟨⟨by decide, Or.inl rfl⟩, Or.inl rfl, Or.inr ⟨rfl, rfl⟩, Or.inr ⟨rfl, rfl⟩⟩
  obtain ⟨ps, hps⟩ := exists_productions_nulls (o := .default) h rfl (by simp) rfl
  obtain ⟨g, hg⟩ := exists_ofSchema (limited_of_small (by decide)) limited_default hps
  have two : "\x7b\"a\":null,\"b\":null\x7d".toList = nullText ["a", "b"] := by cbv
  refine ⟨g, by rw [ofSchemaText, hparse]; exact hg, ?_, by cbv⟩
  rw [language_eq_textsOf hg, textsOf_object h rfl, Utf8.ofString, Utf8.encode_mem_encoded, two]
  exact ⟨nulls ["a", "b"], 0, List.Sublist.refl _, rfl, fun h => absurd rfl h,
    fun h => absurd h.1 (List.cons_ne_nil _ _), nullText_mem _ _ ["a", "b"]⟩

end ConstrainedDecoding.Grammar
