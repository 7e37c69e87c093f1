import ConstrainedDecoding.Proofs.Containers
import ConstrainedDecoding.Proofs.JsonSchemas

/-!
# What schemas describe

A schema describes texts that are put together from those of the schemas inside it. What is left to rules of their
own, such as the targets of references, describes the least that goes with the schemas. This is what the
productions of a document describe, whatever the options.
-/
namespace ConstrainedDecoding.Schema

open Ebnf Computability
open Json (Value)

/-! ## Texts of schemas -/

/-- What schemas leave to rules of their own. -/
inductive Ruled
  | char
  | string
  | value
  | reference (target : String) (depth : Nat)

/-- The texts of a member: a key, a value and what stands between them. -/
def memberTexts (l : Layout) (B key value : Language Char) : Language Char := key * laid B l.keyValueSeparator * value

/-- The text of a key. -/
def keyTexts (key : String) : Language Char := {(Json.stringText key).toList}

/-- The texts of integers between bounds. Without bounds there may be a sign before a zero. -/
def integerTexts (lo hi : Option Int) : Language Char :=
  if lo = none ∧ hi = none then Json.Standard.optional {['-']} * Json.Standard.natural
  else Regex.signed (Regex.Within lo hi)

/-- The texts of numbers between bounds. With bounds there is no exponent. -/
def numberTexts (lo hi : Option Int) : Language Char :=
  if lo = none ∧ hi = none then Json.Standard.number else Regex.decimalsWithin lo hi

/-- What a pattern matches, between quotes. -/
def patternTexts (pattern : String) : Language Char :=
  match Regex.Pattern.parse pattern with
  | .ok p => {['"']} * p.language * {['"']}
  | .error _ => 0

section

variable (l : Layout) (B : Language Char) (R : Ruled → Language Char)

mutual

/-- The texts that a schema describes at a level, given what the rules describe. -/
def texts (depth : Nat) : Schema → Language Char
  | .any => R .value
  | .invalid _ => 0
  | .reference target => R (.reference target depth)
  | .values vs => (vs.map fun v => {v.text.toList}).sum
  | .anyOf _ alternatives | .types alternatives => (textsOfEach depth alternatives).sum
  | .allOf single => texts depth single
  | .boolean => {"true".toList} + {"false".toList}
  | .null => {"null".toList}
  | .pattern text => patternTexts text
  | .string least most =>
    if least = 0 ∧ most = none then R .string else {['"']} * Language.copies (R .char) least most * {['"']}
  | .integer lo hi => integerTexts lo hi
  | .number lo hi => numberTexts lo hi
  | .array initial more least most =>
    arrayTexts l B depth (textsOfEach (depth + 1) initial) (textsOfSome (depth + 1) more) least most
  | .emptyObject => containerTexts l B "\x7b" "\x7d" depth []
  | .object properties required more mayBeEmpty =>
    objectTexts l B depth
      (declaredTexts (depth + 1) required properties ++
        (required.filter fun k => ! properties.any (·.1 == k)).map fun k =>
          (memberTexts l B (keyTexts k) (R .value), true))
      ((textsOfSome (depth + 1) more).map (memberTexts l B (R .string))) mayBeEmpty

/-- The texts of several schemas. -/
def textsOfEach (depth : Nat) : List Schema → List (Language Char)
  | [] => []
  | s :: rest => texts depth s :: textsOfEach depth rest

/-- The texts of a schema that may be absent. -/
def textsOfSome (depth : Nat) : Option Schema → Option (Language Char)
  | none => none
  | some s => some (texts depth s)

/-- The texts of declared members, and whether they are required. -/
def declaredTexts (depth : Nat) (required : List String) : List (String × Schema) → List (Language Char × Bool)
  | [] => []
  | (k, s) :: rest =>
    (memberTexts l B (keyTexts k) (texts depth s), required.contains k) :: declaredTexts depth required rest

end

/-- The texts of containers with any number of equal parts. -/
def anyParts (a b : String) (part : Language Char) : Language Char :=
  laid B (l.opening a 0) * (1 + part * (laid B (l.itemSeparator 0) * part)∗) * laid B (l.closing b 0)

/-- The texts of any value, given those of strings, of numbers and of the values inside. -/
def valueTexts (string number value : Language Char) : Language Char :=
  anyParts l.flat B "\x7b" "\x7d" (memberTexts l.flat B string value) + anyParts l.flat B "[" "]" value + string +
    number + {"true".toList} + {"false".toList} + {"null".toList}

end

/-! ## More texts from more texts -/

section

variable {l : Layout} {B : Language Char} {depth : Nat}

theorem prod_mono {Ls Ls' : List (Language Char)} (h : List.Forall₂ (· ≤ ·) Ls Ls') : Ls.prod ≤ Ls'.prod := by
  induction h with
  | nil => exact le_rfl
  | cons h _ ih =>
    rw [List.prod_cons, List.prod_cons]
    exact mul_le_mul' h ih

theorem sum_mono {Ls Ls' : List (Language Char)} (h : List.Forall₂ (· ≤ ·) Ls Ls') : Ls.sum ≤ Ls'.sum := by
  induction h with
  | nil => exact le_rfl
  | cons h _ ih =>
    rw [List.sum_cons, List.sum_cons]
    exact add_le_add h ih

theorem separated_mono {S : Language Char} {parts parts' : List (Language Char)} (h : List.Forall₂ (· ≤ ·) parts parts') :
    Language.separated S parts ≤ Language.separated S parts' := by
  cases h with
  | nil => exact le_rfl
  | cons h hrest =>
    rw [Language.separated_cons, Language.separated_cons]
    refine mul_le_mul' h (prod_mono ?_)
    rw [List.forall₂_map_left_iff, List.forall₂_map_right_iff]
    exact hrest.imp fun _ _ h => mul_le_mul' le_rfl h

theorem containerTexts_mono {a b : String} {parts parts' : List (Language Char)}
    (h : List.Forall₂ (· ≤ ·) parts parts') :
    containerTexts l B a b depth parts ≤ containerTexts l B a b depth parts' := by
  cases h with
  | nil => exact le_rfl
  | cons h hrest => exact mul_le_mul' (mul_le_mul' le_rfl (separated_mono (.cons h hrest))) le_rfl

theorem replicate_mono {L L' : Language Char} (h : L ≤ L') (n : Nat) :
    List.Forall₂ (· ≤ ·) (List.replicate n L) (List.replicate n L') := by
  induction n with
  | zero => exact .nil
  | succ n ih => exact .cons h ih

theorem getD_mono {more more' : Option (Language Char)} (h : Option.Rel (· ≤ ·) more more') :
    (more.isSome → more'.isSome) ∧ more.getD 0 ≤ more'.getD 0 := by
  cases h with
  | none => exact ⟨id, le_rfl⟩
  | some h => exact ⟨fun _ => rfl, h⟩

theorem arrayTexts_mono {initial initial' : List (Language Char)} {more more' : Option (Language Char)} {least : Nat}
    {most : Option Nat} (hinitial : List.Forall₂ (· ≤ ·) initial initial') (hmore : Option.Rel (· ≤ ·) more more') :
    arrayTexts l B depth initial more least most ≤ arrayTexts l B depth initial' more' least most := by
  obtain ⟨hsome, hle⟩ := getD_mono hmore
  rintro text ⟨n, hleast, hmost, hn, htext⟩
  rw [hinitial.length_eq] at hleast hmost
  exact ⟨n, hleast, hmost, fun h => hsome (hn h),
    containerTexts_mono (List.rel_append hinitial (replicate_mono hle n)) htext⟩

/-- Of members with more texts, the same can be picked. -/
theorem Picked.mono {extra extra' : Option (Language Char)} {members members' : List (Language Char × Bool)}
    {parts : List (Language Char)} (hextra : Option.Rel (· ≤ ·) extra extra')
    (hmembers : List.Forall₂ (fun m m' => m.1 ≤ m'.1 ∧ m.2 = m'.2) members members') (h : Picked extra members parts) :
    ∃ parts', Picked extra' members' parts' ∧ List.Forall₂ (· ≤ ·) parts parts' := by
  obtain ⟨hsome, hle⟩ := getD_mono hextra
  induction h generalizing members' with
  | @extras n hn =>
    cases hmembers
    exact ⟨_, .extras fun h => hsome (hn h), replicate_mono hle n⟩
  | take _ ih =>
    cases hmembers with
    | cons hm hrest =>
      obtain ⟨parts', hparts', hle⟩ := ih hrest
      exact ⟨_, .take hparts', .cons hm.1 hle⟩
  | skip hrequired _ ih =>
    cases hmembers with
    | cons hm hrest =>
      obtain ⟨parts', hparts', hle⟩ := ih hrest
      exact ⟨_, .skip (hm.2 ▸ hrequired) hparts', hle⟩

theorem objectTexts_mono {members members' : List (Language Char × Bool)} {extra extra' : Option (Language Char)}
    {mayBeEmpty : Bool} (hmembers : List.Forall₂ (fun m m' => m.1 ≤ m'.1 ∧ m.2 = m'.2) members members')
    (hextra : Option.Rel (· ≤ ·) extra extra') :
    objectTexts l B depth members extra mayBeEmpty ≤ objectTexts l B depth members' extra' mayBeEmpty := by
  rintro text ⟨parts, hparts, hempty, htext⟩
  obtain ⟨parts', hparts', hle⟩ := hparts.mono hextra hmembers
  refine ⟨parts', hparts', fun hnil => ?_, containerTexts_mono hle htext⟩
  subst hnil
  cases hle
  refine (hempty rfl).imp_right fun ⟨hmembers', hextra'⟩ => ?_
  subst hmembers' hextra'
  cases hmembers
  cases hextra
  exact ⟨rfl, rfl⟩

theorem memberTexts_mono {key key' value value' : Language Char} (hkey : key ≤ key') (hvalue : value ≤ value') :
    memberTexts l B key value ≤ memberTexts l B key' value' := mul_le_mul' (mul_le_mul' hkey le_rfl) hvalue

theorem anyParts_mono {a b : String} {part part' : Language Char} (h : part ≤ part') :
    anyParts l B a b part ≤ anyParts l B a b part' := by
  have further := kstar_mono (mul_le_mul' (le_refl (laid B (l.itemSeparator 0))) h)
  exact mul_le_mul' (mul_le_mul' le_rfl (add_le_add le_rfl (mul_le_mul' h further))) le_rfl

theorem valueTexts_mono {string string' number number' value value' : Language Char} (hstring : string ≤ string')
    (hnumber : number ≤ number') (hvalue : value ≤ value') :
    valueTexts l B string number value ≤ valueTexts l B string' number' value' := by
  unfold valueTexts
  gcongr
  · exact anyParts_mono (memberTexts_mono hstring hvalue)
  · exact anyParts_mono hvalue

variable {R R' : Ruled → Language Char}

mutual

/-- Schemas describe more if the rules do. -/
theorem texts_mono (h : R ≤ R') (depth : Nat) : ∀ s : Schema, texts l B R depth s ≤ texts l B R' depth s
  | .any => by
    simp only [texts]
    exact h _
  | .reference target => by
    simp only [texts]
    exact h _
  | .invalid _ | .values _ | .boolean | .null | .pattern _ | .integer .. | .number .. | .emptyObject => by
    simp only [texts]
    exact le_rfl
  | .anyOf _ alternatives | .types alternatives => by
    simp only [texts]
    exact sum_mono (textsOfEach_mono h depth alternatives)
  | .allOf single => by
    simp only [texts]
    exact texts_mono h depth single
  | .string least most => by
    simp only [texts]
    split
    · exact h _
    · exact mul_le_mul' (mul_le_mul' le_rfl (Language.copies_mono (h _) _ _)) le_rfl
  | .array initial more least most => by
    simp only [texts]
    exact arrayTexts_mono (textsOfEach_mono h (depth + 1) initial) (textsOfSome_mono h (depth + 1) more)
  | .object properties required more mayBeEmpty => by
    simp only [texts]
    refine objectTexts_mono (List.rel_append (declaredTexts_mono h (depth + 1) required properties) ?_) ?_
    · rw [List.forall₂_map_left_iff, List.forall₂_map_right_iff, List.forall₂_same]
      exact fun k _ => ⟨memberTexts_mono le_rfl (h _), rfl⟩
    · have := textsOfSome_mono h (depth + 1) more
      generalize textsOfSome l B R (depth + 1) more = o, textsOfSome l B R' (depth + 1) more = o' at this
      cases this with
      | none => exact .none
      | some hle => exact .some (memberTexts_mono (h _) hle)

theorem textsOfEach_mono (h : R ≤ R') (depth : Nat) : ∀ ss : List Schema,
    List.Forall₂ (· ≤ ·) (textsOfEach l B R depth ss) (textsOfEach l B R' depth ss)
  | [] => .nil
  | s :: rest => .cons (texts_mono h depth s) (textsOfEach_mono h depth rest)

theorem textsOfSome_mono (h : R ≤ R') (depth : Nat) : ∀ o : Option Schema,
    Option.Rel (· ≤ ·) (textsOfSome l B R depth o) (textsOfSome l B R' depth o)
  | none => .none
  | some s => .some (texts_mono h depth s)

theorem declaredTexts_mono (h : R ≤ R') (depth : Nat) (required : List String) : ∀ properties : List (String × Schema),
    List.Forall₂ (fun m m' => m.1 ≤ m'.1 ∧ m.2 = m'.2) (declaredTexts l B R depth required properties)
      (declaredTexts l B R' depth required properties)
  | [] => .nil
  | (_, s) :: rest => .cons ⟨memberTexts_mono le_rfl (texts_mono h depth s), rfl⟩
      (declaredTexts_mono h depth required rest)

end

end

/-! ## Rules -/

/-- What the rules for the parts of a document describe, given what they describe inside each other. -/
def ruleStep (document : Value) (strict : Bool) (l : Layout) (B : Language Char) :
    (Ruled → Language Char) →o (Ruled → Language Char) where
  toFun R
    | .char => Json.Standard.char
    | .string => {['"']} * (R .char)∗ * {['"']}
    | .value => valueTexts l B (R .string) Json.Standard.number (R .value)
    | .reference target depth =>
      {text | ∃ found, Resolves document target found ∧ text ∈ texts l B R depth (ofValue strict found)}
  monotone' _ _ h
    | .char => le_rfl
    | .string => mul_le_mul' (mul_le_mul' le_rfl (kstar_mono (h _))) le_rfl
    | .value => valueTexts_mono (h _) le_rfl (h _)
    | .reference _ depth => fun _ ⟨found, hfound, htext⟩ => ⟨found, hfound, texts_mono h depth _ htext⟩

/-- What the rules for the parts of a document describe. -/
def rules (document : Value) (strict : Bool) (l : Layout) (B : Language Char) : Ruled → Language Char :=
  (ruleStep document strict l B).lfp

theorem Resolves.unique {document found found' : Value} {target : String} (h : Resolves document target found)
    (h' : Resolves document target found') : found = found' := by
  obtain ⟨pointer, htarget, hfound⟩ := h
  obtain ⟨pointer', htarget', hfound'⟩ := h'
  obtain rfl := (List.cons.inj (htarget.symm.trans htarget')).2
  exact Option.some.inj (hfound.symm.trans hfound')

section

variable {document : Value} {strict : Bool} {l : Layout} {B : Language Char}

theorem rules_eq (r : Ruled) : rules document strict l B r = ruleStep document strict l B (rules document strict l B) r :=
  congrFun (ruleStep document strict l B).map_lfp.symm r

@[simp] theorem rules_char : rules document strict l B .char = Json.Standard.char := rules_eq .char

@[simp] theorem rules_string : rules document strict l B .string = Json.Standard.string := by
  rw [rules_eq]
  change {['"']} * (rules document strict l B .char)∗ * {['"']} = _
  rw [rules_char, Json.Standard.string]

end

/-- The white space that options allow between tokens. -/
def Options.blanks (o : Options) : Language Char :=
  Language.copies (Language.single {' ', '\t', '\n', '\r'}) 0 o.maxWhitespace

theorem nil_mem_blanks (o : Options) : [] ∈ o.blanks :=
  Language.mem_copies.2 ⟨0, le_rfl, fun _ _ => Nat.zero_le _, rfl⟩

/-- The texts that a schema inside a document describes at a level. -/
def textsOf (document : Value) (o : Options) (depth : Nat) (schema : Value) : Language Char :=
  let l := Layout.ofOptions o
  texts l o.blanks (rules document o.strict l o.blanks) depth (ofValue o.strict schema)

section

variable {o : Options}

theorem textsOfEach_ofValue (document : Value) (depth : Nat) (vs : List Value) :
    textsOfEach (Layout.ofOptions o) o.blanks (rules document o.strict (Layout.ofOptions o) o.blanks) depth
      (vs.map (ofValue o.strict)) = vs.map (textsOf document o depth) := by
  induction vs with
  | nil => rfl
  | cons v vs ih =>
    rw [List.map_cons, textsOfEach, ih, List.map_cons]
    rfl

theorem textsOfSome_ofValue (document : Value) (depth : Nat) (v : Option Value) :
    textsOfSome (Layout.ofOptions o) o.blanks (rules document o.strict (Layout.ofOptions o) o.blanks) depth
      (v.map (ofValue o.strict)) = v.map (textsOf document o depth) := by
  cases v with
  | none => rfl
  | some v =>
    rw [Option.map_some, textsOfSome]
    rfl

end

theorem ofValue_null (strict : Bool) : ofValue strict (.object [("type", .string "null")]) = .null := by
  simp [ofValue, ofMembers, ofType, Value.lookup]

theorem textsOf_null (document : Value) (o : Options) (depth : Nat) :
    textsOf document o depth (.object [("type", .string "null")]) = {"null".toList} := by
  rw [textsOf, ofValue_null]
  simp only [texts]

end ConstrainedDecoding.Schema
