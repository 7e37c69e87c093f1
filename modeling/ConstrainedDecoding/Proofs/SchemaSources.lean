import ConstrainedDecoding.Proofs.JsonSources

/-!
# What schemas are converted to

Once it is known which rules stand for any value, any string, a character and the references, the
source of a schema is a function of the schema. It says what a conversion has returned, whatever the
conversion had produced before and produces afterwards.
-/
namespace ConstrainedDecoding.Schema

open Ebnf (Source Production)
open Json (Value)

/-- The level under which a reference is filed. -/
def Layout.level (l : Layout) (depth : Nat) : Nat := if (l.newline? 0).isSome then depth else 0

/-- The alternatives for any value, given the rules for values, strings and numbers. -/
def valueAlternatives (l : Layout) (value string number : String) : List Source :=
  let l := l.flat
  let separator := l.itemSeparator 0
  let pair := [.name string] ++ l.keyValueSeparator ++ [.name value]
  [.sequence (l.opening "\x7b" 0 ++ [listOf pair separator] ++ l.closing "\x7d" 0),
    .sequence (l.opening "[" 0 ++ [listOf [.name value] separator] ++ l.closing "]" 0),
    .name string, .name number, .literal "true", .literal "false", .literal "null"]

/-- A string of so many characters. -/
def quotedTimes (char : String) (least : Nat) (most : Option Nat) : Source :=
  match Source.repeated (.name char) least most with
  | [] => .literal "\"\""
  | chars => .sequence ([.literal "\""] ++ chars ++ [.literal "\""])

/-- A required member without a schema of its own. -/
def freeMember (l : Layout) (value key : String) : Member :=
  ⟨[keySource key] ++ l.keyValueSeparator ++ [.name value], true⟩

mutual

/-- The source of a schema, by the rules that there are. -/
def source? (p : Progress) (l : Layout) (depth : Nat) : Schema → Option Source
  | .any => p.anyValue.map .name
  | .invalid _ => none
  | .reference target => (p.references.lookup (target, l.level depth)).map .name
  | .values vs => some (.ofAlternatives (vs.map fun v => .literal v.text))
  | .anyOf _ alternatives => (sources? p l depth alternatives).map .ofAlternatives
  | .allOf single => source? p l depth single
  | .types alternatives => (sources? p l depth alternatives).map .ofAlternatives
  | .boolean => some (.group [.literal "true", .literal "false"])
  | .null => some (.literal "null")
  | .pattern text => (patternSource text).toOption
  | .string least most =>
    if least = 0 ∧ most = none then p.anyString.map .name
    else p.stringChar.map fun char => quotedTimes char least most
  | .integer none none => some integerSource
  | .integer lo hi => some (Regex.Pattern.sequence (Regex.integersBetween lo hi)).toSource
  | .number none none => some numberSource
  | .number lo hi =>
    match Regex.decimalsBetween lo hi with
    | [] => none
    | parts => some (Regex.Pattern.sequence (Regex.oneOf parts)).toSource
  | .array initial more least most =>
    let n := initial.length
    let most := most.map (· - n)
    (sources? p l (depth + 1) initial).bind fun items =>
      (if most = some 0 then some none else optional? p l (depth + 1) more).map fun item =>
        arraySource l depth items item (least - n) most
  | .emptyObject => some (.sequence (l.emptyContainer "\x7b" "\x7d"))
  | .object properties required more mayBeEmpty =>
    (members? p l (depth + 1) required properties).bind fun declared =>
      ((required.filter fun k => ! properties.any (·.1 == k)).mapM fun k =>
        p.anyValue.map fun value => freeMember l value k).bind fun undeclared =>
          (extra? p l (depth + 1) more).map fun extra =>
            objectSource l depth (declared ++ undeclared) extra mayBeEmpty

/-- The sources of schemas. -/
def sources? (p : Progress) (l : Layout) (depth : Nat) : List Schema → Option (List Source)
  | [] => some []
  | s :: rest =>
    (source? p l depth s).bind fun source => (sources? p l depth rest).map fun sources => source :: sources

/-- The source of a schema that may be absent. -/
def optional? (p : Progress) (l : Layout) (depth : Nat) : Option Schema → Option (Option Source)
  | none => some none
  | some s => (source? p l depth s).map some

/-- The members of declared properties. -/
def members? (p : Progress) (l : Layout) (depth : Nat) (required : List String) :
    List (String × Schema) → Option (List Member)
  | [] => some []
  | (k, s) :: rest =>
    (source? p l depth s).bind fun value => (members? p l depth required rest).map fun members =>
      ⟨[keySource k] ++ l.keyValueSeparator ++ [value], required.contains k⟩ :: members

/-- A further member of an object, if there may be any. -/
def extra? (p : Progress) (l : Layout) (depth : Nat) : Option Schema → Option (Option (List Source))
  | none => some none
  | some s =>
    p.anyString.bind fun key => (source? p l depth s).map fun value =>
      some ([.name key] ++ l.keyValueSeparator ++ [value])

end

theorem mem_source?_pattern {p : Progress} {l : Layout} {depth : Nat} {text : String} {source : Source} :
    source ∈ source? p l depth (.pattern text) ↔ patternSource text = .ok source := by
  rw [source?]
  cases patternSource text <;> simp [Except.toOption]

theorem mem_source?_integer {p : Progress} {l : Layout} {depth : Nat} {lo hi : Option Int} {source : Source}
    (h : source ∈ source? p l depth (.integer lo hi)) : (lo = none ∧ hi = none) ∧ source = integerSource ∨
      ((lo ≠ none ∨ hi ≠ none) ∧ source = (Regex.Pattern.sequence (Regex.integersBetween lo hi)).toSource) := by
  cases lo <;> cases hi <;> rw [source?] at h <;> obtain rfl := Option.some.inj h <;> simp

theorem mem_source?_number {p : Progress} {l : Layout} {depth : Nat} {lo hi : Option Int} {source : Source}
    (h : source ∈ source? p l depth (.number lo hi)) : (lo = none ∧ hi = none) ∧ source = numberSource ∨
      ((lo ≠ none ∨ hi ≠ none) ∧ Regex.decimalsBetween lo hi ≠ [] ∧
        source = (Regex.Pattern.sequence (Regex.oneOf (Regex.decimalsBetween lo hi))).toSource) := by
  have bounded {lo hi : Option Int} (hsome : lo ≠ none ∨ hi ≠ none)
      (h : source ∈ source? p l depth (.number lo hi)) : Regex.decimalsBetween lo hi ≠ [] ∧
        source = (Regex.Pattern.sequence (Regex.oneOf (Regex.decimalsBetween lo hi))).toSource := by
    rw [source?] at h
    · split at h
      · cases h
      · rename_i hne
        exact ⟨hne, (Option.some.inj h).symm⟩
    · rintro rfl rfl
      simp at hsome
  cases lo with
  | none =>
    cases hi with
    | none =>
      rw [source?] at h
      exact Or.inl ⟨⟨rfl, rfl⟩, (Option.some.inj h).symm⟩
    | some hi => exact Or.inr ⟨by simp, bounded (by simp) h⟩
  | some lo => exact Or.inr ⟨by simp, bounded (by simp) h⟩

/-- The rules of one progress are those of a later one. -/
structure Progress.Grows (p p' : Progress) : Prop where
  anyValue : ∀ n ∈ p.anyValue, n ∈ p'.anyValue
  anyString : ∀ n ∈ p.anyString, n ∈ p'.anyString
  stringChar : ∀ n ∈ p.stringChar, n ∈ p'.stringChar
  references : ∀ key, ∀ n ∈ p.references.lookup key, n ∈ p'.references.lookup key
  productions : p.productions ⊆ p'.productions

namespace Progress.Grows

variable {p p' p'' : Progress}

theorem refl (p : Progress) : p.Grows p :=
  ⟨fun _ h => h, fun _ h => h, fun _ h => h, fun _ _ h => h, fun _ h => h⟩

theorem trans (h : p.Grows p') (h' : p'.Grows p'') : p.Grows p'' :=
  ⟨fun n hn => h'.anyValue n (h.anyValue n hn), fun n hn => h'.anyString n (h.anyString n hn),
    fun n hn => h'.stringChar n (h.stringChar n hn),
    fun key n hn => h'.references key n (h.references key n hn), fun _ hp => h'.productions (h.productions hp)⟩

end Progress.Grows

section

variable {p p' : Progress} {l : Layout}

theorem map_mono {α β : Type} {o o' : Option α} {f : α → β} (h : ∀ a ∈ o, a ∈ o') : ∀ b ∈ o.map f, b ∈ o'.map f := by
  intro b hb
  obtain ⟨a, ha, rfl⟩ := Option.mem_map.1 hb
  exact Option.mem_map_of_mem f (h a ha)

theorem bind_mono {α β : Type} {o o' : Option α} {f f' : α → Option β} (h : ∀ a ∈ o, a ∈ o')
    (hf : ∀ a, ∀ b ∈ f a, b ∈ f' a) : ∀ b ∈ o.bind f, b ∈ o'.bind f' := by
  intro b hb
  obtain ⟨a, ha, hb⟩ := Option.mem_bind_iff.1 hb
  exact Option.mem_bind_iff.2 ⟨a, h a ha, hf a b hb⟩

theorem mapM_mono {α β : Type} {f f' : α → Option β} {as : List α} (hf : ∀ a, ∀ b ∈ f a, b ∈ f' a) :
    ∀ bs ∈ as.mapM f, bs ∈ as.mapM f' := by
  induction as with
  | nil => exact fun _ h => h
  | cons a as ih =>
    simp only [List.mapM_cons, bind, pure]
    exact bind_mono (hf a) fun _ => bind_mono ih fun _ _ h => h

mutual

/-- A later progress converts a schema to the same source. -/
theorem source?_mono (h : p.Grows p') (depth : Nat) : ∀ s : Schema, ∀ source ∈ source? p l depth s,
    source ∈ source? p' l depth s
  | .any => by
    simp only [source?]
    exact map_mono h.anyValue
  | .invalid _ | .values _ | .boolean | .null | .pattern _ | .emptyObject => by
    simp only [source?]
    exact fun _ h => h
  | .integer lo hi | .number lo hi => by
    cases lo <;> cases hi <;>
      · simp only [source?]
        exact fun _ h => h
  | .reference target => by
    simp only [source?]
    exact map_mono (h.references _)
  | .anyOf _ alternatives | .types alternatives => by
    simp only [source?]
    exact map_mono (sources?_mono h depth alternatives)
  | .allOf single => by
    simp only [source?]
    exact source?_mono h depth single
  | .string least most => by
    simp only [source?]
    split
    · exact map_mono h.anyString
    · exact map_mono h.stringChar
  | .array initial more least most => by
    simp only [source?]
    refine bind_mono (sources?_mono h (depth + 1) initial) fun _ => map_mono ?_
    split
    · exact fun _ h => h
    · exact optional?_mono h (depth + 1) more
  | .object properties required more mayBeEmpty => by
    simp only [source?]
    exact bind_mono (members?_mono h (depth + 1) required properties) fun _ =>
      bind_mono (mapM_mono fun _ => map_mono h.anyValue) fun _ => map_mono (extra?_mono h (depth + 1) more)

theorem sources?_mono (h : p.Grows p') (depth : Nat) : ∀ ss : List Schema, ∀ sources ∈ sources? p l depth ss,
    sources ∈ sources? p' l depth ss
  | [] => fun _ h => h
  | s :: rest => by
    simp only [sources?]
    exact bind_mono (source?_mono h depth s) fun _ => map_mono (sources?_mono h depth rest)

theorem optional?_mono (h : p.Grows p') (depth : Nat) : ∀ o : Option Schema,
    ∀ source ∈ optional? p l depth o, source ∈ optional? p' l depth o
  | none => fun _ h => h
  | some s => by
    simp only [optional?]
    exact map_mono (source?_mono h depth s)

theorem members?_mono (h : p.Grows p') (depth : Nat) (required : List String) :
    ∀ properties : List (String × Schema), ∀ members ∈ members? p l depth required properties,
      members ∈ members? p' l depth required properties
  | [] => fun _ h => h
  | (k, s) :: rest => by
    simp only [members?]
    exact bind_mono (source?_mono h depth s) fun _ => map_mono (members?_mono h depth required rest)

theorem extra?_mono (h : p.Grows p') (depth : Nat) : ∀ o : Option Schema,
    ∀ source ∈ extra? p l depth o, source ∈ extra? p' l depth o
  | none => fun _ h => h
  | some s => by
    simp only [extra?]
    exact bind_mono h.anyString fun _ => map_mono (source?_mono h depth s)

end

end

end ConstrainedDecoding.Schema
