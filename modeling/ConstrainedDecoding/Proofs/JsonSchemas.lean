import ConstrainedDecoding.Proofs.AnyValue
import ConstrainedDecoding.Proofs.NumberSchemas
import ConstrainedDecoding.Proofs.PrintedValues
import ConstrainedDecoding.Proofs.StringPatterns

/-!
# Schemas and JSON texts

With white space anywhere between tokens, the source of a schema puts JSON texts together from those of the
schemas inside it. Only what a pattern matches is put between quotes as it is. So a grammar of a schema describes
JSON texts only, unless some pattern matches a text that may not stand between quotes.
-/
namespace ConstrainedDecoding.Schema

open Ebnf Json Computability
open Standard (Part texts)

/-! ## Lists of parts -/

/-- The texts of a part of a JSON text. -/
abbrev partTexts (part : Part) : Language Char := part.language Standard.blanks texts

/-- A comma with white space around it. -/
abbrev comma : Language Char := Standard.blanks * {[',']} * Standard.blanks

/-- What may follow a part in a list. -/
abbrev further (part : Part) : Language Char := (comma * partTexts part)∗

theorem further_mul_further (part : Part) : further part * further part = further part := kstar_mul_kstar _

section

variable {K : Meaning} {part : Part} {depth : Nat} (hws : K "ws" ≤ Standard.blanks)

include hws

theorem itemSeparator_le : Source.sequenceLanguage K (Layout.standard.itemSeparator depth) ≤ comma := by
  simp only [Layout.standard, Layout.itemSeparator, Layout.blanks, Source.sequenceLanguage_cons,
    Source.sequenceLanguage_nil, Source.language_name, Source.language_literal, mul_one, ← mul_assoc]
  exact mul_le_mul' (mul_le_mul' hws le_rfl) hws

/-- A part after a separator. -/
theorem separated_part_le {ss : List Source} (hss : Source.sequenceLanguage K ss ≤ partTexts part) :
    Source.sequenceLanguage K (Layout.standard.itemSeparator depth ++ ss) ≤ comma * partTexts part := by
  rw [Source.sequenceLanguage_append]
  exact mul_le_mul' (itemSeparator_le hws) hss

theorem separated_le {items : List Source} (hne : items ≠ []) (hitems : ∀ s ∈ items, s.language K ≤ partTexts part) :
    Source.sequenceLanguage K (separated (Layout.standard.itemSeparator depth) items) ≤
      Standard.listOf Standard.blanks (partTexts part) := by
  fun_induction separated (Layout.standard.itemSeparator depth) items with
  | case1 => exact absurd rfl hne
  | case2 item =>
    rw [Source.sequenceLanguage_cons, Source.sequenceLanguage_nil]
    exact mul_le_mul' (hitems item List.mem_cons_self) one_le_kstar
  | case3 item rest hrest ih =>
    obtain ⟨hitem, hitems⟩ := List.forall_mem_cons.1 hitems
    rw [List.cons_append, Source.sequenceLanguage_cons, Source.sequenceLanguage_append]
    refine mul_le_mul' hitem ?_
    calc Source.sequenceLanguage K (Layout.standard.itemSeparator depth) *
          Source.sequenceLanguage K (separated (Layout.standard.itemSeparator depth) rest)
        ≤ comma * (partTexts part * further part) := mul_le_mul' (itemSeparator_le hws) (ih hrest hitems)
      _ = comma * partTexts part * further part := (mul_assoc _ _ _).symm
      _ ≤ further part := mul_kstar_le_kstar

theorem repeated_le {s : Source} (hs : s.language K ≤ partTexts part) (least : Nat) (most : Option Nat) :
    Source.sequenceLanguage K (Source.repeated (.sequence (Layout.standard.itemSeparator depth ++ [s])) least most) ≤
      further part := by
  refine (Source.sequenceLanguage_repeated_le _ least most).trans (kstar_mono ?_)
  rw [Source.language_sequence]
  exact separated_part_le hws (by simpa using hs)

/-! ## Members -/

variable {members : List Member} {extra : Option (List Source)}

/-- Sources of members describe texts of a part. -/
def MembersWithin (K : Meaning) (part : Part) (members : List Member) : Prop :=
  ∀ m ∈ members, Source.sequenceLanguage K m.sources ≤ partTexts part

theorem extraMembers_le {e : List Source} (he : Source.sequenceLanguage K e ≤ partTexts part) :
    (extraMembers (Layout.standard.itemSeparator depth) e).language K ≤ further part := by
  simp only [extraMembers, Source.language_star, Source.language_group, Source.choiceLanguage_cons,
    Source.choiceLanguage_nil, Source.language_sequence, add_zero]
  exact kstar_mono (separated_part_le hws he)

theorem laterMembers_le (hextra : ∀ e ∈ extra, Source.sequenceLanguage K e ≤ partTexts part)
    (hmembers : MembersWithin K part members) :
    Source.sequenceLanguage K (laterMembers (Layout.standard.itemSeparator depth) extra members) ≤ further part := by
  induction members with
  | nil =>
    unfold laterMembers
    split
    · rw [Source.sequenceLanguage_cons, Source.sequenceLanguage_nil, mul_one]
      exact extraMembers_le hws (hextra _ rfl)
    · exact one_le_kstar
  | cons m rest ih =>
    obtain ⟨hm, hrest⟩ := List.forall_mem_cons.1 hmembers
    have next : Source.sequenceLanguage K (Layout.standard.itemSeparator depth ++ m.sources) ≤ comma * partTexts part :=
      separated_part_le hws hm
    rw [laterMembers, Source.sequenceLanguage_append, ← further_mul_further]
    refine mul_le_mul' ?_ (ih hrest)
    split
    · exact next.trans le_kstar
    · simp only [Source.sequenceLanguage_cons, Source.sequenceLanguage_nil, Source.language_question,
        Source.language_group, Source.choiceLanguage_cons, Source.choiceLanguage_nil, Source.language_sequence,
        add_zero, mul_one]
      exact sup_le one_le_kstar (next.trans le_kstar)

theorem memberLists_le (hextra : ∀ e ∈ extra, Source.sequenceLanguage K e ≤ partTexts part)
    (hmembers : MembersWithin K part members) :
    Source.choiceLanguage K (memberLists (Layout.standard.itemSeparator depth) extra members) ≤
      Standard.listOf Standard.blanks (partTexts part) := by
  induction members with
  | nil =>
    unfold memberLists
    split
    · simp only [Source.choiceLanguage_cons, Source.choiceLanguage_nil, Source.language_sequence,
        Source.sequenceLanguage_append, Source.sequenceLanguage_cons, Source.sequenceLanguage_nil, add_zero, mul_one]
      exact mul_le_mul' (hextra _ rfl) (extraMembers_le hws (hextra _ rfl))
    · exact bot_le
  | cons m rest ih =>
    obtain ⟨hm, hrest⟩ := List.forall_mem_cons.1 hmembers
    rw [memberLists, Source.choiceLanguage_cons, Source.language_sequence, Source.sequenceLanguage_append]
    refine sup_le (mul_le_mul' hm (laterMembers_le hws hextra hrest)) ?_
    split
    · exact bot_le
    · exact ih hrest

/-! ## Containers -/

/-- The brackets of the containers of a part. -/
inductive Brackets : String → String → Part → Prop
  | array : Brackets "[" "]" .value
  | object : Brackets "\x7b" "\x7d" .member

omit hws in
theorem Brackets.le_texts {a b : String} (h : Brackets a b part) :
    {a.toList} * (Standard.blanks + (Part.list part).language Standard.blanks texts) * {b.toList} ≤ texts := by
  refine le_trans ?_ (Standard.step_values_le Standard.blanks)
  cases h with
  | array => exact le_add_right (le_add_left le_rfl)
  | object => exact le_add_left le_rfl

theorem emptyContainer_le {a b : String} (h : Brackets a b part) :
    Source.sequenceLanguage K (Layout.standard.emptyContainer a b) ≤ texts := by
  simp only [Layout.standard, Layout.emptyContainer, Layout.blanks, Source.sequenceLanguage_cons,
    Source.sequenceLanguage_nil, Source.language_name, Source.language_literal, mul_one, ← mul_assoc]
  exact (mul_le_mul' (mul_le_mul' le_rfl (hws.trans (le_add_right le_rfl))) le_rfl).trans h.le_texts

theorem container_le {a b : String} {body : List Source} {mayBeEmpty : Bool} (h : Brackets a b part)
    (hbody : Source.sequenceLanguage K body ≤ Standard.listOf Standard.blanks (partTexts part)) :
    (container .standard a b depth body mayBeEmpty).language K ≤ texts := by
  have full : (Source.sequence (Layout.standard.opening a depth ++ body ++ Layout.standard.closing b depth)).language K ≤
      texts := by
    simp only [Layout.standard, Layout.opening, Layout.closing, Layout.blanks, Source.language_sequence,
      Source.sequenceLanguage_append, Source.sequenceLanguage_cons, Source.sequenceLanguage_nil, Source.language_name,
      Source.language_literal, mul_one]
    calc {a.toList} * K "ws" * Source.sequenceLanguage K body * (K "ws" * {b.toList})
        = {a.toList} * (K "ws" * Source.sequenceLanguage K body * K "ws") * {b.toList} := by simp only [mul_assoc]
      _ ≤ {a.toList} * (Part.list part).language Standard.blanks texts * {b.toList} :=
        mul_le_mul' (mul_le_mul' le_rfl (mul_le_mul' (mul_le_mul' hws hbody) hws)) le_rfl
      _ ≤ texts := (mul_le_mul' (mul_le_mul' le_rfl (le_add_left le_rfl)) le_rfl).trans h.le_texts
  unfold container
  dsimp only
  split
  · simp only [Source.language_group, Source.choiceLanguage_cons, Source.choiceLanguage_nil, add_zero]
    refine sup_le full ?_
    rw [Source.language_sequence]
    exact emptyContainer_le hws h
  · exact full

theorem arraySource_le {items : List Source} {more : Option Source} {least : Nat} {most : Option Nat}
    (hitems : ∀ s ∈ items, s.language K ≤ texts) (hmore : ∀ s ∈ more, s.language K ≤ texts) :
    (arraySource .standard depth items more least most).language K ≤ texts := by
  unfold arraySource
  dsimp only
  split
  · rw [Source.language_sequence]
    exact emptyContainer_le hws .array
  · rename_i hne
    exact container_le hws .array (separated_le hws hne hitems)
  · rename_i item
    refine container_le hws .array ?_
    have hitem : item.language K ≤ partTexts .value := hmore item rfl
    rw [Source.sequenceLanguage_cons]
    exact mul_le_mul' hitem (repeated_le hws hitem _ _)
  · rename_i item hne
    refine container_le hws .array ?_
    have hitem : item.language K ≤ partTexts .value := hmore item rfl
    have hitems : ∀ s ∈ items, s.language K ≤ partTexts .value := hitems
    rw [Source.sequenceLanguage_append]
    refine (mul_le_mul' (separated_le hws hne hitems) (repeated_le hws hitem _ _)).trans ?_
    rw [Standard.listOf, mul_assoc]
    exact mul_le_mul' le_rfl (further_mul_further .value).le

theorem objectSource_le {mayBeEmpty : Bool} (hmembers : MembersWithin K .member members)
    (hextra : ∀ e ∈ extra, Source.sequenceLanguage K e ≤ partTexts .member) :
    (objectSource .standard depth members extra mayBeEmpty).language K ≤ texts := by
  unfold objectSource
  split
  · rw [Source.language_sequence]
    exact emptyContainer_le hws .object
  · refine container_le hws .object ?_
    rw [Source.sequenceLanguage_cons, Source.sequenceLanguage_nil, mul_one, Source.language_ofAlternatives]
    exact memberLists_le hws hextra hmembers

/-- A key, its separator and a value. -/
theorem member_le {key value : Source} (hkey : key.language K ≤ Standard.string) (hvalue : value.language K ≤ texts) :
    Source.sequenceLanguage K ([key] ++ Layout.standard.keyValueSeparator ++ [value]) ≤ partTexts .member := by
  simp only [Layout.standard, Layout.keyValueSeparator, Layout.blanks, Source.sequenceLanguage_append,
    Source.sequenceLanguage_cons, Source.sequenceLanguage_nil, Source.language_name, Source.language_literal, mul_one,
    ← mul_assoc]
  exact mul_le_mul' (mul_le_mul' (mul_le_mul' (mul_le_mul' hkey hws) le_rfl) hws) hvalue

end

/-! ## Schemas -/

/-- What the rules of a progress are taken to describe stands in JSON texts where they are used. -/
structure Progress.Within (p : Progress) (K : Meaning) : Prop where
  blanks : K "ws" ≤ Standard.blanks
  stringChar : ∀ n ∈ p.stringChar, K n ≤ Standard.char
  anyString : ∀ n ∈ p.anyString, K n ≤ Standard.string
  anyValue : ∀ n ∈ p.anyValue, K n ≤ texts
  reference : ∀ key, ∀ n ∈ p.references.lookup key, K n ≤ texts

/-- What the patterns that a document asks for match may stand between quotes. -/
def Quotable (document : Value) (strict : Bool) : Prop :=
  ∀ pattern p, Asked document strict (.pattern pattern) → Regex.Pattern.parse pattern = .ok p →
    p.language ≤ Standard.char∗

theorem string_le_texts : Standard.string ≤ texts := fun _ h => .string h

theorem number_le_texts : Standard.number ≤ texts := fun _ h => .number h

theorem PartOf.printable {document v : Value} (h : PartOf document v) (hdocument : document.Printable) :
    v.Printable := by
  induction h with
  | self => exact hdocument
  | item _ hmem ih =>
    cases ih with
    | array hitems => exact hitems _ hmem
  | member _ hmem ih =>
    cases ih with
    | object hmembers => exact hmembers _ hmem

section

variable {K : Meaning}

theorem language_patternSource {pattern : String} {source : Source} (h : patternSource pattern = .ok source) :
    ∃ p, Regex.Pattern.parse pattern = .ok p ∧ source.language K = {['"']} * p.language * {['"']} := by
  unfold patternSource at h
  split at h
  · cases h
  · rename_i p hp
    obtain rfl := Except.ok.inj h
    refine ⟨p, hp, ?_⟩
    simp [Regex.Pattern.language_toSource, mul_assoc]

theorem quotedTimes_le {char : String} (hchar : K char ≤ Standard.char) (least : Nat) (most : Option Nat) :
    (quotedTimes char least most).language K ≤ Standard.string := by
  have chars : Source.sequenceLanguage K ((Source.name char).repeated least most) ≤ Standard.char∗ :=
    (Source.sequenceLanguage_repeated_le _ least most).trans (kstar_mono (by simpa using hchar))
  unfold quotedTimes
  split
  · rw [Source.language_literal]
    rintro _ rfl
    exact Standard.mem_enclosed.2 ⟨[], Language.nil_mem_kstar _, rfl⟩
  · simp only [Source.language_sequence, Source.sequenceLanguage_append, Source.sequenceLanguage_cons,
      Source.sequenceLanguage_nil, Source.language_literal, mul_one]
    exact mul_le_mul' (mul_le_mul' le_rfl chars) le_rfl

theorem language_integerSource : integerSource.language K = Standard.optional {['-']} * Standard.natural := by
  simp [integerSource, language_naturalSource]

theorem integerSource_le : integerSource.language K ≤ Standard.number := by
  rw [language_integerSource]
  exact Standard.integer_le_number

theorem signed_le_number (P : Int → Prop) : Regex.signed P ≤ Standard.number := by
  intro text htext
  obtain ⟨z, -, rfl⟩ := Regex.mem_signed.1 htext
  exact int_mem_number z

variable {document : Value} {strict : Bool} {p : Progress}

/-- The source of a schema without schemas inside it describes JSON texts. -/
theorem leaf_le (hp : p.Within K) (hdocument : document.Printable) (hpatterns : Quotable document strict) {s : Schema}
    {depth : Nat} {source : Source} (hleaf : IsLeaf s) (hasked : Asked document strict s)
    (hsource : source ∈ source? p .standard depth s) : source.language K ≤ texts := by
  cases s with
  | anyOf | allOf | types | array | object => exact hleaf.elim
  | any =>
    obtain ⟨n, hn, rfl⟩ := Option.mem_map.1 hsource
    rw [Source.language_name]
    exact hp.anyValue n hn
  | invalid => cases hsource
  | reference target =>
    obtain ⟨n, hn, rfl⟩ := Option.mem_map.1 hsource
    rw [Source.language_name]
    exact hp.reference _ n hn
  | values vs =>
    obtain rfl := Option.some.inj hsource
    rw [Source.language_ofAlternatives]
    refine Source.choiceLanguage_le (List.forall_mem_map.2 fun v hv => ?_)
    rw [Source.language_literal]
    rintro _ rfl
    exact ((hasked.proper.literals v hv).printable hdocument).text_mem_texts
  | boolean =>
    obtain rfl := Option.some.inj hsource
    simp only [Source.language_group, Source.choiceLanguage_cons, Source.choiceLanguage_nil, Source.language_literal,
      add_zero]
    rintro _ (rfl | rfl) <;> exact .word (by simp)
  | null =>
    obtain rfl := Option.some.inj hsource
    rw [Source.language_literal]
    rintro _ rfl
    exact .word (by simp)
  | pattern pattern =>
    obtain ⟨q, hq, hlanguage⟩ := language_patternSource (K := K) (mem_source?_pattern.1 hsource)
    rw [hlanguage]
    exact (mul_le_mul' (mul_le_mul' le_rfl (hpatterns pattern q hasked hq)) le_rfl).trans string_le_texts
  | string least most =>
    rw [source?] at hsource
    split at hsource
    · obtain ⟨n, hn, rfl⟩ := Option.mem_map.1 hsource
      rw [Source.language_name]
      exact (hp.anyString n hn).trans string_le_texts
    · obtain ⟨n, hn, rfl⟩ := Option.mem_map.1 hsource
      exact (quotedTimes_le (hp.stringChar n hn) _ _).trans string_le_texts
  | integer lo hi =>
    rcases mem_source?_integer hsource with ⟨-, rfl⟩ | ⟨hsome, rfl⟩
    · exact integerSource_le.trans number_le_texts
    · rw [Regex.Pattern.language_toSource, Regex.Pattern.language,
        (fit_integers hsome hasked.proper.shaped).language]
      exact (signed_le_number _).trans number_le_texts
  | number lo hi =>
    rcases mem_source?_number hsource with ⟨-, rfl⟩ | ⟨hsome, hne, rfl⟩
    · rw [language_numberSource]
      exact number_le_texts
    · rw [language_number hsome hasked.proper.shaped.1 hasked.proper.shaped.2 hne]
      rintro _ ⟨d, -, rfl⟩
      exact number_le_texts (Regex.decimals_le_number (Regex.mem_decimals.2 ⟨d, rfl⟩))
  | emptyObject =>
    obtain rfl := Option.some.inj hsource
    rw [Source.language_sequence]
    exact emptyContainer_le hp.blanks .object

/-- That a source describes JSON texts goes from the parts of a schema's source to the whole. -/
theorem inherited_le (hp : p.Within K) (hdocument : document.Printable) (hpatterns : Quotable document strict) :
    Inherited document strict p .standard fun source => source.language K ≤ texts where
  leaf := leaf_le hp hdocument hpatterns
  anyValue n hn := by
    rw [Source.language_name]
    exact hp.anyValue n hn
  choice _ h := by
    rw [Source.language_ofAlternatives]
    exact Source.choiceLanguage_le h
  array _ hitems hitem := arraySource_le hp.blanks hitems hitem
  object hmembers hextra := by
    refine objectSource_le hp.blanks (fun m hm => ?_) fun e he => ?_
    · obtain ⟨key, value, heq, hvalue⟩ := hmembers m hm
      rw [heq]
      refine member_le hp.blanks ?_ hvalue
      rw [keySource, Source.language_literal]
      rintro _ rfl
      exact stringText_mem_string key
    · obtain ⟨key, hkey, value, rfl, hvalue⟩ := hextra e he
      refine member_le hp.blanks ?_ hvalue
      rw [Source.language_name]
      exact hp.anyString key hkey

end

/-! ## Documents -/

section

variable {document : Value} {p : Progress} {root : Source} {ps : List Production}

/-- The rules for references describe JSON texts. The induction is on how texts are described: what the rules
describe so far is cut down to JSON texts where references lead. -/
theorem Converted.meaning_reference (h : Converted document .default p root ps) (hdocument : document.Printable)
    (hpatterns : Quotable document true) :
    ∀ key, ∀ n ∈ p.references.lookup key, Production.meaning ps n ≤ texts := by
  let K : Meaning := fun n =>
    {text | text ∈ Production.meaning ps n ∧ ∀ key, n ∈ p.references.lookup key → text ∈ texts}
  have below : K ≤ Production.meaning ps := fun _ _ h => h.1
  have within : p.Within K :=
    { blanks := (below _).trans h.meaning_ws.le
      stringChar := fun n hn => (below n).trans (h.meaning_stringChar n hn).le
      anyString := fun n hn => (below n).trans (h.meaning_anyString n hn).le
      anyValue := fun n hn => (below n).trans (h.meaning_anyValue n hn).le
      reference := fun key n hn text htext => htext.2 key hn }
  have least : Production.meaning ps ≤ K := by
    refine Production.meaning_le fun q hq text htext => ?_
    have meant : text ∈ Production.meaning ps q.name := by
      rw [Production.meaning_of_mem h.wellFormed.nodup hq]
      exact Source.choiceLanguage_mono below _ htext
    refine ⟨meant, fun key hkey => ?_⟩
    -- the production is among those of the progress, and it is not the one for a character
    obtain ⟨q', hq', hname⟩ := List.mem_map.1 (h.complete.sound.reference key _ hkey)
    obtain rfl := Production.eq_of_name_eq h.wellFormed.nodup ((h.mem q').2 (Or.inr (Or.inl hq'))) hq hname
    cases h.complete.sound.origin q' hq' with
    | char hn => exact absurd hn (h.complete.sound.apart key _ hkey)
    | string hn _ => exact string_le_texts ((h.meaning_anyString _ hn).le meant)
    | number => exact number_le_texts (by simpa [language_numberSource] using htext)
    | value hn _ _ => exact (h.meaning_anyValue _ hn).le meant
    | reference _ hasked hbody =>
      rw [ofOptions_default] at hbody
      have body := (inherited_le within hdocument hpatterns).of_source _ _ hasked _ hbody
      exact body (by simpa using htext)
  exact fun key n hn text htext => (least n htext).2 key hn

/-- The source of a document describes JSON texts if what its patterns match may stand between quotes. -/
theorem Converted.language_root_le (h : Converted document .default p root ps) (hdocument : document.Printable)
    (hpatterns : Quotable document true) : root.language (Production.meaning ps) ≤ texts := by
  have within : p.Within (Production.meaning ps) :=
    { blanks := h.meaning_ws.le
      stringChar := fun n hn => (h.meaning_stringChar n hn).le
      anyString := fun n hn => (h.meaning_anyString n hn).le
      anyValue := fun n hn => (h.meaning_anyValue n hn).le
      reference := h.meaning_reference hdocument hpatterns }
  have hsource := h.source
  rw [ofOptions_default] at hsource
  exact (inherited_le within hdocument hpatterns).of_source 0 _ .root root hsource

end

/-! ## Patterns of documents -/

/-- A document asks for strings that match a pattern which it gives, and not all that the pattern matches may stand
between quotes. -/
def Unquotable (document : Value) (strict : Bool) : Prop := ∃ members pattern p,
  PartOf document (.object members) ∧ Value.lookup "pattern" members = some (.string pattern) ∧
    Asked document strict (.pattern pattern) ∧ Regex.Pattern.parse pattern = .ok p ∧ ¬ p.language ≤ Standard.char∗

section

variable {document : Value} {strict : Bool} {ms : List (String × Value)} {pattern : String}

theorem ofString_eq_pattern (h : ofString ms = .pattern pattern) :
    (∃ format, formatPattern? format = some pattern) ∨ Value.lookup "pattern" ms = some (.string pattern) := by
  unfold ofString at h
  dsimp only at h
  split at h
  · rename_i hformat
    obtain rfl := Schema.pattern.inj h
    split at hformat
    · exact Or.inl ⟨_, hformat⟩
    · cases hformat
  · rename_i hpattern
    obtain rfl := Schema.pattern.inj h
    exact Or.inr hpattern
  · cases h
  · split at h <;> cases h

theorem ofBounds_ne_pattern (whole : Bool) : ofBounds ms whole ≠ .pattern pattern := by
  unfold ofBounds
  split
  · nofun
  · split
    · split
      · split <;> nofun
      · nofun
    · nofun

theorem ofArray_ne_pattern : ofArray strict ms ≠ .pattern pattern := by
  rw [ofArray]
  split
  · rintro ⟨⟩
  · split <;> rintro ⟨⟩

theorem ofObject_ne_pattern : ofObject strict ms ≠ .pattern pattern := by
  rw [ofObject]
  split
  · nofun
  · rename_i hread
    rintro rfl
    simp only [Except.bind_eq_ok] at hread
    obtain ⟨_, -, _, -, _, -, _, -, hread⟩ := hread
    split at hread <;> cases hread

theorem ofType_eq_pattern {name : String} (h : ofType strict ms name = .pattern pattern) :
    ofString ms = .pattern pattern := by
  rw [ofType] at h
  split_ifs at h
  · exact h
  · exact absurd h (ofBounds_ne_pattern _)
  · exact absurd h (ofBounds_ne_pattern _)
  · exact absurd h ofArray_ne_pattern
  · exact absurd h ofObject_ne_pattern

theorem ofMembers_eq_pattern (h : ofMembers strict ms = .pattern pattern) : ofString ms = .pattern pattern := by
  rw [ofMembers] at h
  split at h
  · cases h
  · cases h
  split at h
  · cases h
  split at h
  · cases h
  · cases h
  · cases h
  iterate 3
    split at h
    · cases h
    · cases h
  split at h
  · exact ofType_eq_pattern h
  · cases h
  · cases h
  · cases h
  split_ifs at h
  · exact absurd h ofObject_ne_pattern
  · exact absurd h ofArray_ne_pattern
  · exact h
  · exact absurd h (ofBounds_ne_pattern _)

/-- A pattern that a document asks for is that of a format, or the document gives it. -/
theorem Asked.pattern_given (h : Asked document strict (.pattern pattern)) :
    (∃ format, formatPattern? format = some pattern) ∨
      ∃ members, PartOf document (.object members) ∧ Value.lookup "pattern" members = some (.string pattern) := by
  have ofMembers {ms : List (String × Value)} (hms : PartOf document (.object ms)) (h : ofString ms = .pattern pattern) :
      (∃ format, formatPattern? format = some pattern) ∨
        ∃ members, PartOf document (.object members) ∧ Value.lookup "pattern" members = some (.string pattern) :=
    (ofString_eq_pattern h).imp_right fun h => ⟨ms, hms, h⟩
  have read := h.readFrom
  generalize hs : Schema.pattern pattern = s at read
  cases read with
  | @value v hv =>
    unfold ofValue at hs
    split at hs
    · cases hs
    · cases hs
    · exact ofMembers hv (ofMembers_eq_pattern hs.symm)
    · cases hs
  | members hms => exact ofMembers hms (ofMembers_eq_pattern hs.symm)
  | type _ hms => exact ofMembers hms (ofType_eq_pattern hs.symm)
  | invalid | any => cases hs

/-- What the patterns of the formats match may stand between quotes. -/
theorem quotable_or_unquotable (document : Value) (strict : Bool) :
    Quotable document strict ∨ Unquotable document strict := by
  refine or_iff_not_imp_right.2 fun hnot pattern p hasked hp => ?_
  rcases hasked.pattern_given with ⟨format, hformat⟩ | ⟨members, hmembers, hpattern⟩
  · exact Regex.Pattern.language_le_of_hasPlainChars hp (hasPlainChars_of_formatPattern? hformat)
  · by_contra hle
    exact hnot ⟨members, pattern, p, hmembers, hpattern, hasked, hp, hle⟩

end

/-! ## Strings that match a pattern -/

/-- The schema of the strings that match a pattern. -/
def matching (pattern : String) : Value := .object [("type", .string "string"), ("pattern", .string pattern)]

section

variable {pattern : String} {p : Regex.Pattern} {o : Options}

theorem ofValue_matching (pattern : String) (strict : Bool) : ofValue strict (matching pattern) = .pattern pattern := by
  simp [matching, ofValue, ofMembers, ofType, ofString, Value.lookup]

theorem limited_matching (pattern : String) : Limited (matching pattern) :=
  limited_of_leaves (by simp) (by simp)

theorem exists_productions_matching (hp : Regex.Pattern.parse pattern = .ok p) :
    ∃ ps, productions (matching pattern) o = .ok ps := by
  let source : Source := .sequence [.literal "\"", .group [p.toSource], .literal "\""]
  refine exists_productions_of_ran source (p := Conversion.start) ?_
  rw [ofValue_matching, toSource, Conversion.ran_lift, patternSource, hp]
  exact ⟨rfl, rfl⟩

end

end ConstrainedDecoding.Schema

namespace ConstrainedDecoding.Grammar

open Json Schema Computability

variable {pattern : String} {p : Regex.Pattern} {o : Options}

/-- A schema of strings that match a pattern describes what the pattern matches, between quotes. -/
theorem language_of_pattern {document : Value} {g : Grammar} (hg : ofSchema document o = .ok g)
    (hread : ofValue o.strict document = .pattern pattern) (hp : Regex.Pattern.parse pattern = .ok p) :
    g.language = Utf8.encoded ({['"']} * p.language * {['"']}) := by
  obtain ⟨_, root, ps, hconverted, hlanguage⟩ := language_of_ofSchema hg
  have hsource := hconverted.source
  rw [hread, mem_source?_pattern] at hsource
  obtain ⟨q, hq, hroot⟩ := language_patternSource (K := Ebnf.Production.meaning ps) hsource
  obtain rfl := Except.ok.inj (hp.symm.trans hq)
  rw [hlanguage, hroot]

theorem exists_ofSchema_matching (ho : o.Limited) (hp : Regex.Pattern.parse pattern = .ok p) :
    ∃ g, ofSchema (matching pattern) o = .ok g := by
  obtain ⟨ps, hps⟩ := exists_productions_matching hp
  exact exists_ofSchema (limited_matching pattern) ho hps

theorem quoted_le_texts {L : Language Char} : {['"']} * L * {['"']} ≤ Standard.texts ↔ L ≤ Standard.char∗ := by
  constructor
  · intro h inner hinner
    exact Standard.quoted_mem_values.1 (h (Standard.mem_enclosed.2 ⟨inner, hinner, rfl⟩))
  · intro h text htext
    obtain ⟨inner, hinner, rfl⟩ := Standard.mem_enclosed.1 htext
    exact Standard.quoted_mem_values.2 (h hinner)

/-- A schema describes UTF-8 forms of JSON texts only, unless it asks for strings that match a pattern of its own
and the pattern matches a text that may not stand between quotes. A schema of strings that match a pattern
describes JSON texts only exactly if all that the pattern matches may stand there. -/
theorem schema_describes_json_or_unquotable {text : String} {g : Grammar} (hg : ofSchemaText text .default = .ok g) :
    ∃ document, Json.parse? text = some document ∧
      ((∀ w ∈ g.language, ∃ value ∈ Standard.texts, w = Utf8.encode value) ∨ Unquotable document true) ∧
      ∀ pattern p, ofValue true document = .pattern pattern → Regex.Pattern.parse pattern = .ok p →
        ((∀ w ∈ g.language, ∃ value ∈ Standard.texts, w = Utf8.encode value) ↔ p.language ≤ Standard.char∗) := by
  unfold ofSchemaText at hg
  split at hg
  · cases hg
  rename_i document hparse
  refine ⟨document, hparse, (quotable_or_unquotable document true).imp_left fun hquotable => ?_, ?_⟩
  · obtain ⟨_, root, ps, hconverted, hlanguage⟩ := language_of_ofSchema hg
    rw [hlanguage]
    exact Utf8.encoded_le_encoded.2 (hconverted.language_root_le (printable_of_parse? hparse) hquotable)
  · intro pattern p hread hp
    rw [language_of_pattern hg hread hp, ← quoted_le_texts]
    exact Utf8.encoded_le_encoded

/-- A pattern of plain characters, for example. -/
theorem letters_describe_json :
    ∃ g, ofSchemaText "\x7b\"type\":\"string\",\"pattern\":\"a+\"\x7d" .default = .ok g ∧
      ∀ w ∈ g.language, ∃ value ∈ Standard.texts, w = Utf8.encode value := by
  have hparse : Json.parse? "\x7b\"type\":\"string\",\"pattern\":\"a+\"\x7d" = some (matching "a+") := by cbv
  have hp : Regex.Pattern.parse "a+" = .ok (.alternation [.sequence [.quantified (.char 'a') .plus]]) := by cbv
  obtain ⟨g, hg⟩ := exists_ofSchema_matching limited_default hp
  have htext : ofSchemaText "\x7b\"type\":\"string\",\"pattern\":\"a+\"\x7d" .default = .ok g := by
    rw [ofSchemaText, hparse]
    exact hg
  obtain ⟨document, hdocument, -, hexact⟩ := schema_describes_json_or_unquotable htext
  obtain rfl := Option.some.inj (hparse.symm.trans hdocument)
  have plain := Regex.Pattern.language_le_of_hasPlainChars hp (by decide)
  exact ⟨g, htext, (hexact "a+" _ (ofValue_matching "a+" true) hp).2 plain⟩

/-- A pattern that is a quote puts a third quote into a string. -/
theorem threeQuotes_described :
    ∃ g, ofSchemaText "\x7b\"type\":\"string\",\"pattern\":\"\\\"\"\x7d" .default = .ok g ∧
      Utf8.ofString "\"\"\"" ∈ g.language ∧
        ¬ ∃ value ∈ Standard.texts, Utf8.ofString "\"\"\"" = Utf8.encode value := by
  have hparse : Json.parse? "\x7b\"type\":\"string\",\"pattern\":\"\\\"\"\x7d" = some (matching "\"") := by cbv
  have hp : Regex.Pattern.parse "\"" = .ok (.alternation [.sequence [.char '"']]) := by cbv
  obtain ⟨g, hg⟩ := exists_ofSchema_matching limited_default hp
  have hlanguage := language_of_pattern hg (ofValue_matching "\"" true) hp
  have matched : (Regex.Pattern.alternation [.sequence [.char '"']]).language = {['"']} := by
    simp [Regex.Pattern.language, Regex.Pattern.choiceLanguage, Regex.Pattern.sequenceLanguage]
  have quotes : "\"\"\"".toList = '"' :: (['"'] ++ ['"']) := by simp
  refine ⟨g, by rw [ofSchemaText, hparse]; exact hg, ?_, ?_⟩
  · rw [hlanguage, matched, Utf8.ofString, quotes, Utf8.encode_mem_encoded]
    exact Standard.mem_enclosed.2 ⟨['"'], rfl, rfl⟩
  · rintro ⟨value, hvalue, heq⟩
    obtain rfl := Utf8.encode_injective heq
    rw [quotes] at hvalue
    exact Standard.quote_notMem_char (Standard.quoted_mem_values.1 hvalue)

end ConstrainedDecoding.Grammar
