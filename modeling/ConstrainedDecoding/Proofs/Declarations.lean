import ConstrainedDecoding.Proofs.Lexing

/-!
# Which declarations a text makes

A text whose identifiers are all declared is read as the declarations that its tokens spell: there
are none or just these, and none only if a name is declared twice or the root is not declared.
-/
namespace ConstrainedDecoding.Ebnf

/-! ## The end of a text -/

/-- The end of the text is the last token, and only the last one. -/
def Ended (ts : List (Located Token)) : Prop :=
  ∃ us p, ts = us ++ [⟨p, .endOfFile⟩] ∧ ∀ t ∈ us, t.value ≠ .endOfFile

theorem ended_cons {t : Located Token} {ts : List (Located Token)} (ht : t.value ≠ .endOfFile) :
    Ended (t :: ts) ↔ Ended ts := by
  constructor
  · rintro ⟨us, p, heq, hus⟩
    cases us with
    | nil =>
      obtain ⟨rfl, -⟩ := List.cons.inj heq
      exact absurd rfl ht
    | cons u us =>
      obtain ⟨rfl, rfl⟩ := List.cons.inj heq
      exact ⟨us, p, rfl, fun x hx => hus x (List.mem_cons_of_mem _ hx)⟩
  · rintro ⟨us, p, rfl, hus⟩
    exact ⟨t :: us, p, rfl, List.forall_mem_cons.2 ⟨ht, hus⟩⟩

theorem ended_cons_endOfFile {t : Located Token} {ts : List (Located Token)}
    (ht : t.value = .endOfFile) : Ended (t :: ts) ↔ ts = [] := by
  constructor
  · rintro ⟨us, p, heq, hus⟩
    cases us with
    | nil => exact (List.cons.inj heq).2
    | cons u us =>
      obtain ⟨rfl, -⟩ := List.cons.inj heq
      exact absurd ht (hus _ List.mem_cons_self)
  · rintro rfl
    obtain ⟨p, _⟩ := t
    cases ht
    exact ⟨[], p, rfl, by simp⟩

theorem Ended.eq_of_next {ts : List (Located Token)} (h : Ended ts)
    (hts : (next ts).value = .endOfFile) : ∃ p, ts = [⟨p, .endOfFile⟩] := by
  cases ts with
  | nil =>
    obtain ⟨us, p, heq, -⟩ := h
    simp at heq
  | cons t ts =>
    obtain rfl := (ended_cons_endOfFile hts).1 h
    obtain ⟨p, t⟩ := t
    obtain rfl : t = .endOfFile := hts
    exact ⟨p, rfl⟩

theorem ended_append {ts us : List (Located Token)} (h : .endOfFile ∉ values ts) :
    Ended (ts ++ us) ↔ Ended us := by
  induction ts with
  | nil => rfl
  | cons t ts ih =>
    simp only [values, List.map_cons, List.mem_cons, not_or] at h
    rw [List.cons_append, ended_cons (Ne.symm h.1), ih h.2]

theorem ended_tokensFrom (p : Position) (cs : List Char) :
    ∀ ts, tokensFrom p cs = .ok ts → Ended ts := by
  fun_induction tokensFrom p cs with
  | case1 p cs q found =>
    rintro _ ⟨⟩
    exact ⟨[], q, rfl, by simp⟩
  | case2 => simp
  | case3 p cs q c rest found cut hcut ih =>
    intro ts h
    obtain ⟨us, hus, rfl⟩ := Except.map_eq_ok.1 h
    exact (ended_cons (readToken_value hcut).ne_endOfFile).2 (ih us hus)

theorem ended_nameRules (before : Option (Located Token)) (ts : List (Located Token)) :
    ∀ us, nameRules before ts = .ok us → Ended ts → Ended us := by
  fun_induction nameRules before ts with
  | case1 =>
    rintro _ - ⟨us, p, heq, -⟩
    simp at heq
  | case2 => simp
  | case3 before t place rest name ht _ ih =>
    intro us h hts
    obtain ⟨vs, hvs, rfl⟩ := Except.map_eq_ok.1 h
    exact (ended_cons (by simp)).2 (ih vs hvs ((ended_cons (by simp [ht])).1 hts))
  | case4 => simp
  | case5 before t rest _ ih =>
    intro us h hts
    obtain ⟨vs, hvs, rfl⟩ := Except.map_eq_ok.1 h
    by_cases ht : t.value = .endOfFile
    · obtain rfl := (ended_cons_endOfFile ht).1 hts
      cases hvs
      exact hts
    · exact (ended_cons ht).2 (ih vs hvs ((ended_cons ht).1 hts))

theorem ended_tokens {text : String} {ts : List (Located Token)} (h : tokens text = .ok ts) :
    Ended ts := by
  rw [tokens, Except.bind_eq_ok] at h
  obtain ⟨us, hus, h⟩ := h
  have ended := ended_tokensFrom _ _ us hus
  split at h
  · cases h
  · exact ended_nameRules _ _ _ h ended

/-! ## Declared names -/

/-- The name that a token declares. -/
def ruleName? : Token → Option String
  | .ruleName name => some name
  | _ => none

/-- The names that tokens declare. -/
def ruleNames (ts : List Token) : List String := ts.filterMap ruleName?

theorem mem_ruleNames {ts : List Token} {name : String} :
    name ∈ ruleNames ts ↔ .ruleName name ∈ ts := by
  simp only [ruleNames, List.mem_filterMap]
  constructor
  · rintro ⟨t, ht, hname⟩
    cases t <;> simp_all [ruleName?]
  · exact fun h => ⟨_, h, rfl⟩

@[simp] theorem ruleNames_cons (t : Token) (ts : List Token) :
    ruleNames (t :: ts) = (ruleName? t).toList ++ ruleNames ts := by
  cases h : ruleName? t <;> simp [ruleNames, h]

private theorem ruleName?_of_ne {t : Located Token}
    (h : ∀ p name, t = ⟨p, .ruleName name⟩ → False) : ruleName? t.value = none := by
  obtain ⟨p, t⟩ := t
  cases t with
  | ruleName name => exact (h p name rfl).elim
  | _ => rfl

theorem lists_declareAll (t : NameTable) (ts : List (Located Token)) :
    ∀ {names : List String} {t' : NameTable}, t.Lists names → names.Nodup →
      declareAll t ts = .ok t' → t'.Lists (names ++ ruleNames (values ts)) ∧
        (names ++ ruleNames (values ts)).Nodup := by
  fun_induction declareAll t ts with
  | case1 t =>
    rintro names _ h hnodup ⟨⟩
    simpa [ruleNames] using ⟨h, hnodup⟩
  | case2 => simp
  | case3 t p name rest hnew ih =>
    intro names t' h hnodup hok
    have new : name ∉ names := h.find?_eq_none.1 (by simpa using hnew)
    have := ih (h.declare name) (List.nodup_append.2 ⟨hnodup, by simp, by
      simp only [List.mem_singleton, forall_eq]
      exact fun a ha heq => new (heq ▸ ha)⟩) hok
    simpa [ruleName?] using this
  | case4 t u rest hu ih =>
    intro names t' h hnodup hok
    simpa [ruleName?_of_ne hu] using ih h hnodup hok

theorem exists_declareAll (t : NameTable) (ts : List (Located Token)) :
    ∀ {names : List String}, t.Lists names → (names ++ ruleNames (values ts)).Nodup →
      ∃ t', declareAll t ts = .ok t' := by
  fun_induction declareAll t ts with
  | case1 t => exact fun _ _ => ⟨t, rfl⟩
  | case2 t p name rest hold =>
    intro names h hnodup
    have old : name ∈ names := by
      by_contra hname
      simp [h.find?_eq_none.2 hname] at hold
    have := (List.nodup_append.1 hnodup).2.2 name old name (by simp [ruleName?])
    exact absurd rfl this
  | case3 t p name rest hnew ih =>
    intro names h hnodup
    exact ih (h.declare name) (by simpa [ruleName?] using hnodup)
  | case4 t u rest hu ih =>
    intro names h hnodup
    exact ih h (by simpa [ruleName?_of_ne hu] using hnodup)

/-! ## Declarations -/

section

variable {refers : String → RuleId → Prop}

/-- Tokens neither name a rule, nor follow its name, nor end the text. -/
def Inner (ts : List Token) : Prop :=
  ∀ t ∈ ts, ruleName? t = none ∧ t ≠ .endOfFile ∧ t ≠ .assign

theorem inner_append {ts us : List Token} : Inner (ts ++ us) ↔ Inner ts ∧ Inner us :=
  List.forall_mem_append

theorem Bounds.inner {ts : List Token} {least : UInt32} {most : Option UInt32}
    (h : Bounds ts least most) : Inner ts := by
  cases h <;> simp [Inner, ruleName?]

theorem Spells.inner {role : Role} {ts : List Token} {p : Phrase} (h : Spells refers role ts p) :
    Inner ts := by
  induction h with
  | unit | emptyLiteral | literal | charClass | identifier => simp [Inner, ruleName?]
  | plain _ ih | last _ ih | only _ ih => exact ih
  | group _ ih =>
    refine List.forall_mem_cons.2 ⟨⟨rfl, nofun, nofun⟩, inner_append.2 ⟨ih, ?_⟩⟩
    simp [Inner, ruleName?]
  | quantified _ hbounds ih => exact inner_append.2 ⟨ih, hbounds.inner⟩
  | further _ _ ih ih' => exact inner_append.2 ⟨ih, ih'⟩
  | bar _ _ ih ih' => exact inner_append.2 ⟨ih, List.forall_mem_cons.2 ⟨⟨rfl, nofun, nofun⟩, ih'⟩⟩

theorem SpellsLookahead.inner {ts : List Token} {l : Option Phrase} (h : SpellsLookahead refers ts l) :
    Inner ts := by
  cases h with
  | nothing => simp [Inner]
  | phrase h =>
    refine List.forall_mem_cons.2 ⟨⟨rfl, nofun, nofun⟩, inner_append.2 ⟨h.inner, ?_⟩⟩
    simp [Inner, ruleName?]

theorem Inner.ruleNames_eq {ts : List Token} (h : Inner ts) : ruleNames ts = [] :=
  List.filterMap_eq_nil_iff.2 fun t ht => (h t ht).1

theorem SpellsRule.ruleNames_eq {ts : List Token} {d : Declaration} (h : SpellsRule refers ts d) :
    ruleNames ts = [d.name] := by
  cases h with
  | rule _ hbody hl =>
    have := (inner_append.2 ⟨hbody.inner, hl.inner⟩).ruleNames_eq
    simpa [ruleName?] using this

theorem SpellsRules.ruleNames_eq {ts : List Token} {ds : List Declaration}
    (h : SpellsRules refers ts ds) : ruleNames ts = ds.map (·.name) := by
  induction h with
  | nil => rfl
  | cons h _ ih =>
    rw [ruleNames, List.filterMap_append]
    exact congrArg₂ _ h.ruleNames_eq ih

theorem SpellsRules.not_mem_endOfFile {ts : List Token} {ds : List Declaration}
    (h : SpellsRules refers ts ds) : .endOfFile ∉ ts := by
  induction h with
  | nil => simp
  | cons h _ ih =>
    refine fun hmem => (List.mem_append.1 hmem).elim (fun hmem => ?_) ih
    cases h with
    | rule _ hbody hl =>
      simp only [List.mem_cons, reduceCtorEq, false_or] at hmem
      exact (inner_append.2 ⟨hbody.inner, hl.inner⟩ _ hmem).2.1 rfl

theorem Bounds.not_mem_identifier {ts : List Token} {least : UInt32} {most : Option UInt32}
    (h : Bounds ts least most) (name : String) : .identifier name ∉ ts := by
  cases h <;> simp

/-- The identifiers of what is spelled refer to rules. -/
theorem Spells.refers_of_mem {role : Role} {ts : List Token} {p : Phrase} (h : Spells refers role ts p)
    {name : String} : .identifier name ∈ ts → ∃ r, refers name r := by
  induction h with
  | unit | emptyLiteral | literal | charClass => simp
  | @identifier name' r hr =>
    intro hmem
    obtain rfl : name = name' := by simpa using hmem
    exact ⟨r, hr⟩
  | group _ ih => simpa using ih
  | plain _ ih | last _ ih | only _ ih => exact ih
  | quantified _ hbounds ih =>
    exact fun hmem => (List.mem_append.1 hmem).elim ih fun hmem => absurd hmem (hbounds.not_mem_identifier name)
  | further _ _ ih ih' => exact fun hmem => (List.mem_append.1 hmem).elim ih ih'
  | bar _ _ ih ih' => exact fun hmem => (List.mem_append.1 hmem).elim ih (by simpa using ih')

theorem SpellsRules.refers_of_mem {ts : List Token} {ds : List Declaration} (h : SpellsRules refers ts ds)
    {name : String} : .identifier name ∈ ts → ∃ r, refers name r := by
  induction h with
  | nil => simp
  | cons h _ ih =>
    refine fun hmem => (List.mem_append.1 hmem).elim (fun hmem => ?_) ih
    cases h with
    | rule _ hbody hl =>
      simp only [List.mem_cons, reduceCtorEq, false_or, List.mem_append] at hmem
      refine hmem.elim hbody.refers_of_mem fun hmem => ?_
      cases hl with
      | nothing => simp at hmem
      | phrase hl => exact hl.refers_of_mem (by simpa using hmem)

end

/-! ## Texts -/

theorem knows_of_lists {t : NameTable} {names : List String} (h : t.Lists names)
    (hnodup : names.Nodup) : Knows (NamesAt names) t := by
  intro name r hr
  obtain ⟨hlt, rfl⟩ := List.getElem?_eq_some_iff.1 hr
  exact h.find?_getElem hnodup hlt

/-- The scope of declared names: identifiers are found as the rules that have them. -/
def Scope.ofNames (names : List String) : Scope (NamesAt names) where
  Table := Knows (NamesAt names)
  declare name h := h.declare name
  refers_of_find h hs hr := by
    obtain rfl := Option.some.inj ((h _ _ hs).symm.trans hr)
    exact hs

theorem Scope.titles_ofNames {ts : List (Located Token)} :
    (Scope.ofNames (ruleNames (values ts))).Titles ts := by
  intro name hname t ht
  obtain ⟨r, hr⟩ := List.mem_iff_getElem?.1 (mem_ruleNames.2 hname)
  rwa [ht name r hr]

/-- The scope in which declared names alone are known: other identifiers can be found as any rule. -/
def Scope.ofTitles (names : List String) : Scope (fun name r => name ∈ names → NamesAt names name r) where
  Table := Knows (NamesAt names)
  declare name h := h.declare name
  refers_of_find h hs hr hmem := by
    obtain rfl := Option.some.inj ((h _ _ (hs hmem)).symm.trans hr)
    exact hs hmem

theorem Scope.titles_ofTitles {ts : List (Located Token)} :
    (Scope.ofTitles (ruleNames (values ts))).Titles ts := by
  intro name hname t ht _
  obtain ⟨r, hr⟩ := List.mem_iff_getElem?.1 (mem_ruleNames.2 hname)
  rwa [ht name r hr]

theorem resolved_ofTitles (names : List String) (ts : List (Located Token)) :
    Resolved (fun name r => name ∈ names → NamesAt names name r) ts := by
  intro name _
  by_cases hmem : name ∈ names
  · obtain ⟨r, hr⟩ := List.mem_iff_getElem?.1 hmem
    exact ⟨r, fun _ => hr⟩
  · exact ⟨0, fun h => absurd h hmem⟩

/-- Every identifier is the name of a declared rule. -/
def Closed (ts : List (Located Token)) : Prop :=
  ∀ name, .identifier name ∈ values ts → .ruleName name ∈ values ts

theorem Closed.resolved {ts : List (Located Token)} (h : Closed ts) :
    Resolved (NamesAt (ruleNames (values ts))) ts :=
  fun name hname => List.mem_iff_getElem?.1 (mem_ruleNames.2 (h name hname))

/-- A text is read in three steps: its rules are declared, the root is looked up, and then the rules
are read. -/
theorem parse_of_tokens {text root : String} {ts : List (Located Token)} {ds : List Declaration}
    (hts : tokens text = .ok ts) : parse text root = .ok ds ↔
      ∃ t, declareAll .empty ts = .ok t ∧ (t.find? root).isSome = true ∧ declarations t ts = .ok ds := by
  simp only [parse, hts, Except.bind_eq_ok, Except.ok.injEq, exists_eq_left']
  refine exists_congr fun t => and_congr_right fun _ => ?_
  cases t.find? root <;>
    simp [throw, throwThe, MonadExceptOf.throw, bind, Except.bind]

theorem exists_tokens {text root : String} {ds : List Declaration} (h : parse text root = .ok ds) :
    ∃ ts, tokens text = .ok ts := by
  rw [parse, Except.bind_eq_ok] at h
  obtain ⟨ts, hts, -⟩ := h
  exact ⟨ts, hts⟩

theorem Declares.ruleNames_eq {ts : List Token} {ds : List Declaration} (h : Declares ts ds) :
    ruleNames ts = ds.map (·.name) := by
  obtain ⟨us, rfl, hrules⟩ := h
  rw [← hrules.ruleNames_eq, ruleNames, List.filterMap_append]
  simp [ruleNames, ruleName?]

theorem Declares.closed {ts : List (Located Token)} {ds : List Declaration} (h : Declares (values ts) ds) :
    Closed ts := by
  intro name hname
  rw [← mem_ruleNames, h.ruleNames_eq]
  obtain ⟨us, hus, hspells⟩ := h
  rw [hus] at hname
  obtain ⟨r, hr⟩ := hspells.refers_of_mem (by simpa using hname)
  exact List.mem_of_getElem? hr

/-- A text is read as the declarations that its tokens spell, if these have distinct names and one
of them is the root. -/
theorem parse_of_declares {text root : String} {ts : List (Located Token)} {ds : List Declaration}
    (hts : tokens text = .ok ts) (h : Declares (values ts) ds) (hnodup : (ds.map (·.name)).Nodup)
    (hroot : root ∈ ds.map (·.name)) : parse text root = .ok ds := by
  have names := h.ruleNames_eq
  obtain ⟨us, hus, hrules⟩ := h
  rw [← names] at hrules hnodup hroot
  obtain ⟨t, ht⟩ := exists_declareAll .empty ts NameTable.lists_empty hnodup
  obtain ⟨lists, -⟩ := lists_declareAll _ _ NameTable.lists_empty List.nodup_nil ht
  obtain ⟨vs, ws, rfl, hvs, hws⟩ := List.map_eq_append_iff.1 hus
  obtain ⟨p, rfl⟩ := values_eq_singleton.1 hws
  refine (parse_of_tokens hts).2
    ⟨t, ht, ?_, declarations_of_spells hrules hvs (knows_of_lists lists hnodup) rfl⟩
  rw [Option.isSome_iff_ne_none]
  exact fun hnone => (lists.find?_eq_none.1 hnone) hroot

/-- What a text has been read as is spelled by its tokens, in a scope that its name table is in. -/
theorem spells_of_parse {refers : String → RuleId → Prop} {text root : String}
    {ts : List (Located Token)} {ds : List Declaration}
    (hts : tokens text = .ok ts) (S : Scope refers)
    (hS : ∀ t, Knows (NamesAt (ruleNames (values ts))) t → S.Table t) (hresolved : Resolved refers ts)
    (htitles : S.Titles ts) (h : parse text root = .ok ds) :
    (∃ us, values ts = us ++ [.endOfFile] ∧ SpellsRules refers us ds) ∧
      ruleNames (values ts) = ds.map (·.name) ∧ (ds.map (·.name)).Nodup ∧ root ∈ ds.map (·.name) := by
  obtain ⟨t, ht, hroot, hds⟩ := (parse_of_tokens hts).1 h
  obtain ⟨lists, nodup⟩ := lists_declareAll _ _ NameTable.lists_empty List.nodup_nil ht
  rw [List.nil_append] at lists nodup
  obtain ⟨us, rest, rfl, hend, hrules⟩ := declarations_spec S t _ ds
    (hS t (knows_of_lists lists nodup)) hresolved htitles hds
  have ended := (ended_append hrules.not_mem_endOfFile).1 (ended_tokens hts)
  have root_mem : root ∈ ruleNames (values (us ++ rest)) := by
    by_contra hmem
    simp [lists.find?_eq_none.2 hmem] at hroot
  obtain ⟨p, rfl⟩ := ended.eq_of_next hend
  have names : ruleNames (values (us ++ [⟨p, .endOfFile⟩])) = ds.map (·.name) := by
    rw [← hrules.ruleNames_eq, values, List.map_append, ruleNames, List.filterMap_append]
    simp [ruleNames, ruleName?]
  exact ⟨⟨_, List.map_append, hrules⟩, names, names ▸ nodup, names ▸ root_mem⟩

/-- A text without undeclared identifiers is read as the declarations that its tokens spell alone. -/
theorem parse_eq_ok {text root : String} {ts : List (Located Token)} {ds : List Declaration}
    (hts : tokens text = .ok ts) (hclosed : Closed ts) : parse text root = .ok ds ↔
      Declares (values ts) ds ∧ (ds.map (·.name)).Nodup ∧ root ∈ ds.map (·.name) := by
  refine ⟨fun h => ?_, fun ⟨h, hnodup, hroot⟩ => parse_of_declares hts h hnodup hroot⟩
  obtain ⟨⟨us, hus, hrules⟩, names, nodup, hroot⟩ := spells_of_parse hts (Scope.ofNames _)
    (fun _ h => h) hclosed.resolved Scope.titles_ofNames h
  rw [names] at hrules
  exact ⟨⟨us, hus, hrules⟩, nodup, hroot⟩

/-- The tokens of a text that is read spell declarations in just one way. -/
theorem Declares.eq_of_parse {text root : String} {ts : List (Located Token)}
    {ds ds' : List Declaration} (hts : tokens text = .ok ts) (hclosed : Closed ts)
    (h : parse text root = .ok ds) (h' : Declares (values ts) ds') : ds' = ds := by
  obtain ⟨hdeclares, nodup, hroot⟩ := (parse_eq_ok hts hclosed).1 h
  have names : ds'.map (·.name) = ds.map (·.name) := by
    rw [← h'.ruleNames_eq, hdeclares.ruleNames_eq]
  have := (parse_eq_ok hts hclosed).2 ⟨h', names ▸ nodup, names ▸ hroot⟩
  exact Except.ok.inj (this.symm.trans h)

end ConstrainedDecoding.Ebnf
