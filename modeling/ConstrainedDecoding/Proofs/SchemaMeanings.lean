import ConstrainedDecoding.Proofs.SchemaLanguages

/-!
# Productions describe what schemas do

If the rules that a conversion has made describe what they stand for, the source of a schema describes what the
schema does. So, since what the rules describe is the least that goes with the productions, the productions of a
document describe what the document does.
-/
namespace ConstrainedDecoding.Schema

open Ebnf Computability
open Json (Value)

/-! ## Levels -/

section

variable {l : Layout} {B : Language Char} {depth depth' : Nat}

/-- Levels matter only in layouts with lines. -/
theorem Layout.eq_or_unbroken (h : l.level depth = l.level depth') : depth = depth' ∨ ∀ d, l.newline? d = none := by
  cases l with
  | anyWhitespace => exact Or.inr fun _ => rfl
  | fixed _ _ indent =>
    cases indent with
    | none => exact Or.inr fun _ => rfl
    | some n => exact Or.inl h

theorem Layout.level_succ (h : l.level depth = l.level depth') : l.level (depth + 1) = l.level (depth' + 1) := by
  rcases Layout.eq_or_unbroken h with rfl | hnone
  · rfl
  · simp [Layout.level, hnone]

theorem containerTexts_congr (h : l.level depth = l.level depth') (a b : String) (parts : List (Language Char)) :
    containerTexts l B a b depth parts = containerTexts l B a b depth' parts := by
  rcases Layout.eq_or_unbroken h with rfl | hnone
  · rfl
  · cases parts <;> simp [containerTexts, Layout.opening, Layout.closing, Layout.itemSeparator, hnone]

theorem arrayTexts_congr (h : l.level depth = l.level depth') (initial : List (Language Char))
    (more : Option (Language Char)) (least : Nat) (most : Option Nat) :
    arrayTexts l B depth initial more least most = arrayTexts l B depth' initial more least most := by
  ext text
  exact exists_congr fun n => by rw [containerTexts_congr h]

theorem objectTexts_congr (h : l.level depth = l.level depth') (members : List (Language Char × Bool))
    (extra : Option (Language Char)) (mayBeEmpty : Bool) :
    objectTexts l B depth members extra mayBeEmpty = objectTexts l B depth' members extra mayBeEmpty := by
  ext text
  exact exists_congr fun parts => by rw [containerTexts_congr h]

end

/-! ## Sources of schemas -/

/-- The name of a rule, if there is one. -/
def Progress.rule? (p : Progress) (l : Layout) : Ruled → Option String
  | .char => p.stringChar
  | .string => p.anyString
  | .value => p.anyValue
  | .reference target depth => p.references.lookup (target, l.level depth)

/-- The names of rules, and that of white space, describe what they stand for. -/
structure Progress.Agrees (p : Progress) (l : Layout) (K : Meaning) (B : Language Char) (R : Ruled → Language Char) :
    Prop where
  spaced : l.Spaced K B
  rule : ∀ r, ∀ n ∈ p.rule? l r, K n = R r

section

variable {document : Value} {strict : Bool} {p : Progress} {l : Layout} {K : Meaning} {B : Language Char}
  {R : Ruled → Language Char}

theorem choiceLanguage_eq_sum (K : Meaning) (ss : List Source) :
    Source.choiceLanguage K ss = (ss.map (·.language K)).sum := by
  induction ss with
  | nil => rfl
  | cons s ss ih => rw [Source.choiceLanguage_cons, ih, List.map_cons, List.sum_cons]

theorem language_quotedTimes {char : String} {least : Nat} {most : Option Nat} (h : ∀ m ∈ most, least ≤ m) :
    (quotedTimes char least most).language K = {['"']} * Language.copies (K char) least most * {['"']} := by
  rw [← Source.language_name (K := K) char, ← sequenceLanguage_repeated h]
  unfold quotedTimes
  split
  · rename_i hnil
    rw [hnil, Source.sequenceLanguage_nil, mul_one, Language.singleton_mul_singleton]
    rfl
  · simp [mul_assoc]

theorem language_memberSources (h : p.Agrees l K B R) (key value : Source) :
    Source.sequenceLanguage K ([key] ++ l.keyValueSeparator ++ [value]) =
      memberTexts l B (key.language K) (value.language K) := by
  rw [Source.sequenceLanguage_append, Source.sequenceLanguage_append, h.spaced.keyValueSeparator]
  simp [memberTexts]

/-- A schema without schemas inside it has a source that describes its texts. -/
theorem language_leaf (h : p.Agrees l K B R) {s : Schema} {depth depth' : Nat} {source : Source}
    (hlevel : l.level depth = l.level depth') (hleaf : IsLeaf s) (hasked : Asked document strict s)
    (hsource : source ∈ source? p l depth s) : source.language K = texts l B R depth' s := by
  cases s with
  | anyOf | allOf | types | array | object => exact hleaf.elim
  | any =>
    obtain ⟨n, hn, rfl⟩ := Option.mem_map.1 hsource
    exact h.rule .value n hn
  | invalid => cases hsource
  | reference target =>
    rw [source?, hlevel] at hsource
    obtain ⟨n, hn, rfl⟩ := Option.mem_map.1 hsource
    exact h.rule (.reference target depth') n hn
  | values vs =>
    obtain rfl := Option.some.inj hsource
    rw [Source.language_ofAlternatives, choiceLanguage_eq_sum, List.map_map, texts]
    rfl
  | boolean =>
    obtain rfl := Option.some.inj hsource
    simp [texts]
  | null =>
    obtain rfl := Option.some.inj hsource
    rfl
  | pattern text =>
    obtain ⟨q, hq, hlanguage⟩ := language_patternSource (K := K) (mem_source?_pattern.1 hsource)
    rw [hlanguage, texts, patternTexts, hq]
  | string least most =>
    rw [texts]
    rw [source?] at hsource
    split at hsource
    · rename_i hall
      obtain ⟨n, hn, rfl⟩ := Option.mem_map.1 hsource
      rw [if_pos hall]
      exact h.rule .string n hn
    · rename_i hall
      obtain ⟨n, hn, rfl⟩ := Option.mem_map.1 hsource
      rw [if_neg hall, language_quotedTimes hasked.proper.shaped, h.rule .char n hn]
  | integer lo hi =>
    rw [texts, integerTexts]
    rcases mem_source?_integer hsource with ⟨hnone, rfl⟩ | ⟨hsome, rfl⟩
    · rw [if_pos hnone, language_integerSource]
    · rw [if_neg (not_and_or.2 hsome), Regex.Pattern.language_toSource, Regex.Pattern.language,
        (fit_integers hsome hasked.proper.shaped).language]
  | number lo hi =>
    rw [texts, numberTexts]
    rcases mem_source?_number hsource with ⟨hnone, rfl⟩ | ⟨hsome, hne, rfl⟩
    · rw [if_pos hnone, language_numberSource]
    · rw [if_neg (not_and_or.2 hsome),
        language_number hsome hasked.proper.shaped.1 hasked.proper.shaped.2 hne]
  | emptyObject =>
    obtain rfl := Option.some.inj hsource
    rw [Source.language_sequence, h.spaced.emptyContainer]
    rfl

theorem length_sources? {depth : Nat} {ss : List Schema} : ∀ {sources : List Source},
    sources ∈ sources? p l depth ss → sources.length = ss.length := by
  induction ss with
  | nil =>
    rintro _ ⟨⟩
    rfl
  | cons s rest ih =>
    intro sources hs
    rw [sources?] at hs
    obtain ⟨source, -, hs⟩ := Option.mem_bind_iff.1 hs
    obtain ⟨others, hothers, rfl⟩ := Option.mem_map.1 hs
    rw [List.length_cons, List.length_cons, ih hothers]

/-- The members for keys without a schema. -/
theorem part_freeMembers (h : p.Agrees l K B R) {keys : List String} : ∀ {members : List Member},
    members ∈ keys.mapM (fun k => p.anyValue.map fun value => freeMember l value k) →
      members.map (·.part K) = keys.map fun k => (memberTexts l B (keyTexts k) (R .value), true) := by
  induction keys with
  | nil =>
    rintro _ ⟨⟩
    rfl
  | cons k keys ih =>
    intro members hmembers
    simp only [List.mapM_cons, bind, pure] at hmembers
    obtain ⟨first, hfirst, hmembers⟩ := Option.mem_bind_iff.1 hmembers
    obtain ⟨others, hothers, hmembers⟩ := Option.mem_bind_iff.1 hmembers
    obtain rfl := Option.some.inj hmembers
    obtain ⟨value, hvalue, rfl⟩ := Option.mem_map.1 hfirst
    rw [List.map_cons, List.map_cons, ih hothers, Member.part, freeMember, language_memberSources h,
      Source.language_name, h.rule .value value hvalue]
    rfl

mutual

/-- The source of a schema describes the texts that the schema does. -/
theorem language_source (h : p.Agrees l K B R) {depth depth' : Nat} (hlevel : l.level depth = l.level depth') :
    ∀ s : Schema, Asked document strict s → ∀ source ∈ source? p l depth s, source.language K = texts l B R depth' s
  | .any, hasked, _, hs | .invalid _, hasked, _, hs | .reference _, hasked, _, hs | .values _, hasked, _, hs
  | .boolean, hasked, _, hs | .null, hasked, _, hs | .pattern _, hasked, _, hs | .string .., hasked, _, hs
  | .integer .., hasked, _, hs | .number .., hasked, _, hs | .emptyObject, hasked, _, hs =>
    language_leaf h hlevel (by trivial) hasked hs
  | .anyOf _ alternatives, hasked, _, hs | .types alternatives, hasked, _, hs => by
    rw [source?] at hs
    obtain ⟨sources, hsources, rfl⟩ := Option.mem_map.1 hs
    rw [Source.language_ofAlternatives, choiceLanguage_eq_sum, texts,
      language_sources h hlevel alternatives (fun _ hs => hasked.child hs) _ hsources]
  | .allOf single, hasked, _, hs => by
    rw [source?] at hs
    rw [texts, language_source h hlevel single (hasked.child (List.mem_singleton_self _)) _ hs]
  | .array initial more least most, hasked, _, hs => by
    rw [source?] at hs
    obtain ⟨items, hitems, hs⟩ := Option.mem_bind_iff.1 hs
    obtain ⟨item, hitem, rfl⟩ := Option.mem_map.1 hs
    have hlanguages := language_sources h (Layout.level_succ hlevel) initial
      (fun _ hs => hasked.child (List.mem_append_left _ hs)) _ hitems
    have hlength := length_sources? hitems
    obtain ⟨hmost, hmore⟩ := hasked.proper.shaped
    rw [texts, ← arrayTexts_congr hlevel, ← hlanguages, ← hlength]
    refine language_arraySource h.spaced (hlength ▸ hmost) (fun hnone => ?_) ?_
    · cases more with
      | none => exact hlength ▸ hmore rfl
      | some => cases hnone
    · rw [hlength]
      split at hitem
      · rename_i hfull
        rw [if_pos hfull]
        exact (Option.some.inj hitem).symm
      · rename_i hfull
        rw [if_neg hfull]
        exact language_optional h (Layout.level_succ hlevel) more
          (fun _ hs => hasked.child (List.mem_append_right _ (Option.mem_toList.2 hs))) _ hitem
  | .object properties required more mayBeEmpty, hasked, _, hs => by
    rw [source?] at hs
    obtain ⟨declared, hdeclared, hs⟩ := Option.mem_bind_iff.1 hs
    obtain ⟨undeclared, hundeclared, hs⟩ := Option.mem_bind_iff.1 hs
    obtain ⟨extra, hextra, rfl⟩ := Option.mem_map.1 hs
    rw [texts, ← objectTexts_congr hlevel, language_objectSource h.spaced, List.map_append, part_freeMembers h hundeclared,
      language_members h (Layout.level_succ hlevel) required properties
        (fun m hm => hasked.child (List.mem_append_left _ (List.mem_map_of_mem hm))) _ hdeclared,
      language_extra h (Layout.level_succ hlevel) more
        (fun _ hs => hasked.child (List.mem_append_right _ (Option.mem_toList.2 hs))) _ hextra]

theorem language_sources (h : p.Agrees l K B R) {depth depth' : Nat} (hlevel : l.level depth = l.level depth') :
    ∀ ss : List Schema, (∀ s ∈ ss, Asked document strict s) → ∀ sources ∈ sources? p l depth ss,
      sources.map (·.language K) = textsOfEach l B R depth' ss
  | [], _, _, hs => by
    obtain rfl := Option.some.inj hs
    rfl
  | s :: rest, hasked, _, hs => by
    rw [sources?] at hs
    obtain ⟨first, hfirst, hs⟩ := Option.mem_bind_iff.1 hs
    obtain ⟨others, hothers, rfl⟩ := Option.mem_map.1 hs
    obtain ⟨hs, hrest⟩ := List.forall_mem_cons.1 hasked
    rw [List.map_cons, textsOfEach, language_source h hlevel s hs _ hfirst, language_sources h hlevel rest hrest _ hothers]

theorem language_optional (h : p.Agrees l K B R) {depth depth' : Nat} (hlevel : l.level depth = l.level depth') :
    ∀ o : Option Schema, (∀ s ∈ o, Asked document strict s) → ∀ item ∈ optional? p l depth o,
      item.map (·.language K) = textsOfSome l B R depth' o
  | none, _, _, hs => by
    obtain rfl := Option.some.inj hs
    rfl
  | some s, hasked, _, hs => by
    rw [optional?] at hs
    obtain ⟨source, hsource, rfl⟩ := Option.mem_map.1 hs
    rw [Option.map_some, textsOfSome, language_source h hlevel s (hasked s rfl) _ hsource]

theorem language_members (h : p.Agrees l K B R) {depth depth' : Nat} (hlevel : l.level depth = l.level depth')
    (required : List String) : ∀ properties : List (String × Schema), (∀ m ∈ properties, Asked document strict m.2) →
      ∀ members ∈ members? p l depth required properties,
        members.map (·.part K) = declaredTexts l B R depth' required properties
  | [], _, _, hs => by
    obtain rfl := Option.some.inj hs
    rfl
  | (k, s) :: rest, hasked, _, hs => by
    rw [members?] at hs
    obtain ⟨value, hvalue, hs⟩ := Option.mem_bind_iff.1 hs
    obtain ⟨others, hothers, rfl⟩ := Option.mem_map.1 hs
    obtain ⟨hs, hrest⟩ := List.forall_mem_cons.1 hasked
    rw [List.map_cons, declaredTexts, Member.part, language_memberSources h, language_source h hlevel s hs _ hvalue,
      language_members h hlevel required rest hrest _ hothers]
    rfl

theorem language_extra (h : p.Agrees l K B R) {depth depth' : Nat} (hlevel : l.level depth = l.level depth') :
    ∀ o : Option Schema, (∀ s ∈ o, Asked document strict s) → ∀ extra ∈ extra? p l depth o,
      extra.map (Source.sequenceLanguage K) = (textsOfSome l B R depth' o).map (memberTexts l B (R .string))
  | none, _, _, hs => by
    obtain rfl := Option.some.inj hs
    rfl
  | some s, hasked, _, hs => by
    rw [extra?] at hs
    obtain ⟨key, hkey, hs⟩ := Option.mem_bind_iff.1 hs
    obtain ⟨value, hvalue, rfl⟩ := Option.mem_map.1 hs
    rw [Option.map_some, language_memberSources h, Source.language_name, h.rule .string key hkey,
      language_source h hlevel s (hasked s rfl) _ hvalue, textsOfSome, Option.map_some]

end

/-! ## Rules -/

/-- A list between brackets has any number of parts. -/
theorem language_anyParts (hspaced : l.Spaced K B) (a b : String) (item : List Source) :
    Source.sequenceLanguage K (l.opening a 0 ++ [listOf item (l.itemSeparator 0)] ++ l.closing b 0) =
      anyParts l B a b (Source.sequenceLanguage K item) := by
  have list : Source.sequenceLanguage K [listOf item (l.itemSeparator 0)] = 1 + Source.sequenceLanguage K item *
      (laid B (l.itemSeparator 0) * Source.sequenceLanguage K item)∗ := by
    simp [listOf, hspaced.itemSeparator]
  rw [Source.sequenceLanguage_append, Source.sequenceLanguage_append, hspaced.opening, hspaced.closing, list]
  rfl

/-- The alternatives for any value say what values are. -/
theorem language_alternatives (hspaced : l.Spaced K B) (value string number : String) :
    Source.choiceLanguage K (valueAlternatives l value string number) = valueTexts l B (K string) (K number) (K value) := by
  have pair : Source.sequenceLanguage K ([.name string] ++ l.flat.keyValueSeparator ++ [.name value]) =
      memberTexts l.flat B (K string) (K value) := by
    rw [Source.sequenceLanguage_append, Source.sequenceLanguage_append, hspaced.flat.keyValueSeparator]
    simp [memberTexts]
  have item : Source.sequenceLanguage K [.name value] = K value := by simp
  simp only [valueAlternatives, Source.choiceLanguage_cons, Source.choiceLanguage_nil, Source.language_sequence,
    language_anyParts hspaced.flat, pair, item, Source.language_name, Source.language_literal, valueTexts, add_zero,
    add_assoc]

end

/-! ## Documents -/

section

variable {document : Value} {o : Options} {p : Progress} {root : Source} {ps : List Production}

theorem Produced.meaning_mem (h : Produced document o p root ps) {n : String} {ss : List Source}
    (hmem : ⟨n, ss⟩ ∈ p.productions) : Production.meaning ps n = Source.choiceLanguage (Production.meaning ps) ss :=
  Production.meaning_of_mem h.nodup ((h.mem _).2 (Or.inr (Or.inl hmem)))

theorem Produced.meaning_root (h : Produced document o p root ps) :
    Production.meaning ps "root" = root.language (Production.meaning ps) := by
  have := Production.meaning_of_mem h.nodup ((h.mem _).2 (Or.inl rfl))
  simpa using this

theorem language_whitespaceSource (K : Meaning) (o : Options) : (whitespaceSource o).language K = o.blanks := by
  unfold whitespaceSource Options.blanks
  rw [Source.language_quantified]
  cases o.maxWhitespace <;> simp [Quantifier.least, Quantifier.most]

theorem Produced.spaced (h : Produced document o p root ps) :
    (Layout.ofOptions o).Spaced (Production.meaning ps) o.blanks := by
  have hws : ⟨"ws", [whitespaceSource o]⟩ ∈ blankProductions o → Production.meaning ps "ws" = o.blanks := fun hmem => by
    have := Production.meaning_of_mem h.nodup ((h.mem _).2 (Or.inr (Or.inr hmem)))
    simpa [language_whitespaceSource] using this
  unfold blankProductions at hws
  cases hl : Layout.ofOptions o with
  | anyWhitespace =>
    rw [hl] at hws
    exact hws (List.mem_singleton_self _)
  | fixed => trivial

/-- White space is not what the rules are for. -/
theorem Produced.ne_ws (h : Produced document o p root ps) {l : Layout} {r : Ruled} {n : String}
    (hn : n ∈ p.rule? l r) : n ≠ "ws" := by
  have usable : p.Usable (· ≠ "ws") := h.complete.usable fun q hq hname => by
    have := (List.nodup_cons.1 (List.nodup_cons.1 h.complete.sound.nodup).2).1
    exact this (hname ▸ List.mem_map_of_mem hq)
  cases r with
  | char => exact (usable.stringChar n hn).2
  | string => exact (usable.anyString n hn).2
  | value => exact (usable.anyValue n hn).2
  | reference => exact (usable.reference _ n hn).2

/-- The production of a rule says what the rule stands for, as far as numbers are described. -/
theorem Produced.exists_rule (h : Produced document o p root ps) {K : Meaning} {R : Ruled → Language Char}
    (hK : p.Agrees (Layout.ofOptions o) K o.blanks R) {r : Ruled} {n : String} (hn : n ∈ p.rule? (Layout.ofOptions o) r) :
    ∃ q ∈ ps, q.name = n ∧
      ((∀ m, ⟨m, [numberSource]⟩ ∈ p.productions → K m ≤ Json.Standard.number) →
        Source.choiceLanguage K q.alternatives ≤ ruleStep document o.strict (Layout.ofOptions o) o.blanks R r) ∧
      ((∀ m, ⟨m, [numberSource]⟩ ∈ p.productions → Json.Standard.number ≤ K m) →
        ruleStep document o.strict (Layout.ofOptions o) o.blanks R r ≤ Source.choiceLanguage K q.alternatives) := by
  have known {q : Production} (hq : q ∈ p.productions) : q ∈ ps := (h.mem q).2 (Or.inr (Or.inl hq))
  cases r with
  | char =>
    have char : Source.choiceLanguage K charAlternatives = Json.Standard.char := language_charAlternatives
    exact ⟨_, known (h.complete.sound.char n hn), rfl, fun _ => char.le, fun _ => char.ge⟩
  | string =>
    obtain ⟨c, hc, hmem⟩ := h.complete.string n hn
    have string : Source.choiceLanguage K [quotedStar c] = {['"']} * (R .char)∗ * {['"']} := by
      rw [← hK.rule .char c hc]
      simp [quotedStar, mul_assoc]
    exact ⟨_, known hmem, rfl, fun _ => string.le, fun _ => string.ge⟩
  | value =>
    obtain ⟨s, hs, m, hm, hmem⟩ := h.complete.value n hn
    have value := language_alternatives hK.spaced n s m
    rw [hK.rule .string s hs, hK.rule .value n hn] at value
    exact ⟨_, known hmem, rfl, fun hnumber => value.le.trans (valueTexts_mono le_rfl (hnumber m hm) le_rfl),
      fun hnumber => (valueTexts_mono le_rfl (hnumber m hm) le_rfl).trans value.ge⟩
  | reference target depth =>
    obtain ⟨depth', found, body, hlevel, hfound, hasked, hbody, hmem⟩ :=
      h.complete.references.made target _ n hn List.not_mem_nil
    have reference : Source.choiceLanguage K [body] =
        ruleStep document o.strict (Layout.ofOptions o) o.blanks R (.reference target depth) := by
      rw [Source.choiceLanguage_cons, Source.choiceLanguage_nil, add_zero, language_source hK hlevel.symm _ hasked _ hbody]
      ext text
      constructor
      · exact fun htext => ⟨found, hfound, htext⟩
      · rintro ⟨found', hfound', htext⟩
        exact hfound.unique hfound' ▸ htext
    exact ⟨_, known hmem, rfl, fun _ => reference.le, fun _ => reference.ge⟩

/-- The rules describe no more than what they stand for. What the productions describe is cut down to that. -/
theorem Produced.meaning_rule_le (h : Produced document o p root ps) {r : Ruled} {n : String}
    (hn : n ∈ p.rule? (Layout.ofOptions o) r) :
    Production.meaning ps n ≤ rules document o.strict (Layout.ofOptions o) o.blanks r := by
  let allowed : Ruled → Language Char := rules document o.strict (Layout.ofOptions o) o.blanks
  let K : Meaning := fun n =>
    {text | text ∈ Production.meaning ps n ∧ ∀ r, n ∈ p.rule? (Layout.ofOptions o) r → text ∈ allowed r}
  let R : Ruled → Language Char := fun r => ((p.rule? (Layout.ofOptions o) r).map K).getD 0
  have below : K ≤ Production.meaning ps := fun _ _ h => h.1
  have agrees : p.Agrees (Layout.ofOptions o) K o.blanks R := by
    refine ⟨?_, fun r n hn => by simp [R, Option.mem_def.1 hn]⟩
    have blanks : K "ws" = Production.meaning ps "ws" :=
      le_antisymm (below "ws") fun text htext => ⟨htext, fun r hr => absurd rfl (h.ne_ws hr)⟩
    have spaced := h.spaced
    cases hl : Layout.ofOptions o with
    | anyWhitespace =>
      rw [hl] at spaced
      exact blanks.trans spaced
    | fixed => trivial
  have numbers : ∀ m, ⟨m, [numberSource]⟩ ∈ p.productions → K m ≤ Json.Standard.number := fun m hm => by
    refine (below m).trans (h.meaning_mem hm).le |>.trans ?_
    simp [language_numberSource]
  have within : R ≤ allowed := by
    intro r
    cases hr : p.rule? (Layout.ofOptions o) r with
    | none => simp [R, hr]
    | some n =>
      simp only [R, hr, Option.map_some, Option.getD_some]
      exact fun text htext => htext.2 r hr
  have least : Production.meaning ps ≤ K := by
    refine Production.meaning_le fun q hq text htext => ?_
    have meant : text ∈ Production.meaning ps q.name := by
      rw [Production.meaning_of_mem h.nodup hq]
      exact Source.choiceLanguage_mono below _ htext
    refine ⟨meant, fun r hr => ?_⟩
    obtain ⟨q', hq', hname, hle, -⟩ := h.exists_rule agrees hr
    obtain rfl := Production.eq_of_name_eq h.nodup hq' hq hname
    have := (ruleStep document o.strict (Layout.ofOptions o) o.blanks).monotone within r (hle numbers htext)
    exact (rules_eq r).symm.le this
  exact fun text htext => (least n htext).2 r hn

/-- The rules describe what they stand for. -/
theorem Produced.meaning_rule (h : Produced document o p root ps) {r : Ruled} {n : String}
    (hn : n ∈ p.rule? (Layout.ofOptions o) r) :
    Production.meaning ps n = rules document o.strict (Layout.ofOptions o) o.blanks r := by
  refine le_antisymm (h.meaning_rule_le hn) ?_
  -- where there is no rule, it may stand for anything
  let R : Ruled → Language Char := fun r => ((p.rule? (Layout.ofOptions o) r).map (Production.meaning ps)).getD ⊤
  have agrees : p.Agrees (Layout.ofOptions o) (Production.meaning ps) o.blanks R :=
    ⟨h.spaced, fun r n hn => by simp [R, Option.mem_def.1 hn]⟩
  have least : rules document o.strict (Layout.ofOptions o) o.blanks ≤ R := by
    refine OrderHom.lfp_le _ fun r => ?_
    cases hr : p.rule? (Layout.ofOptions o) r with
    | none => simp [R, hr]
    | some n =>
      obtain ⟨q, hq, rfl, -, hle⟩ := h.exists_rule agrees hr
      have numbers : ∀ m, ⟨m, [numberSource]⟩ ∈ p.productions →
          Json.Standard.number ≤ Production.meaning ps m := fun m hm => by
        refine le_trans ?_ (h.meaning_mem hm).ge
        simp [language_numberSource]
      simp only [R, hr, Option.map_some, Option.getD_some]
      rw [Production.meaning_of_mem h.nodup hq]
      exact hle numbers
  have := least r
  simpa [R, Option.mem_def.1 hn] using this

theorem Produced.agrees (h : Produced document o p root ps) : p.Agrees (Layout.ofOptions o) (Production.meaning ps) o.blanks
    (rules document o.strict (Layout.ofOptions o) o.blanks) := ⟨h.spaced, fun _ _ hn => h.meaning_rule hn⟩

/-- The productions of a document describe the texts that the document does. -/
theorem meaning_root_of_productions (h : productions document o = .ok ps) :
    Production.meaning ps "root" = textsOf document o 0 document := by
  obtain ⟨p, root, hproduced⟩ := exists_produced h
  rw [hproduced.meaning_root]
  exact language_source hproduced.agrees rfl _ .root root hproduced.source

end

end ConstrainedDecoding.Schema

namespace ConstrainedDecoding.Grammar

/-- A grammar of a document describes the UTF-8 forms of the texts that the document does. -/
theorem language_eq_textsOf {document : Json.Value} {o : Schema.Options} {g : Grammar} (h : ofSchema document o = .ok g) :
    g.language = Utf8.encoded (Schema.textsOf document o 0 document) := by
  obtain ⟨p, root, ps, hconverted, hlanguage⟩ := language_of_ofSchema h
  rw [hlanguage]
  exact congrArg Utf8.encoded
    (Schema.language_source hconverted.toProduced.agrees rfl _ .root root hconverted.source)

end ConstrainedDecoding.Grammar

namespace ConstrainedDecoding.Schema

open Ebnf

/-- The conversion of a document, if it gives a result, describes a language: its productions do, and the grammar
that is read from their text. -/
structure ConvertsTo (document : Json.Value) (o : Options) (L : Language Char) : Prop where
  productions : ∀ ps, productions document o = .ok ps → Production.meaning ps "root" = L
  grammar : ∀ g, Grammar.ofSchema document o = .ok g → g.language = Utf8.encoded L

/-- The conversion of a document describes the texts that the document does. -/
theorem convertsTo_textsOf (document : Json.Value) (o : Options) : ConvertsTo document o (textsOf document o 0 document) :=
  ⟨fun _ => meaning_root_of_productions, fun _ => Grammar.language_eq_textsOf⟩

end ConstrainedDecoding.Schema
