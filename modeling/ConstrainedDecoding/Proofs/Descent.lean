import ConstrainedDecoding.Ebnf.Parser
import ConstrainedDecoding.Proofs.Folds
import ConstrainedDecoding.Proofs.Names
import ConstrainedDecoding.Proofs.Phrases

/-!
# Reading rules finds what the tokens spell

What recursive descent reads is spelled by the tokens that it took, and it reads every phrase that
tokens spell, if what follows them cannot belong to the phrase. So tokens spell at most one phrase.
-/
namespace ConstrainedDecoding.Ebnf

variable {refers : String → RuleId → Prop}

/-- The tokens without their places. -/
abbrev values (ts : List (Located Token)) : List Token := ts.map (·.value)

theorem values_eq_cons {ts : List (Located Token)} {t : Token} {us : List Token} :
    values ts = t :: us ↔ ∃ p vs, ts = ⟨p, t⟩ :: vs ∧ values vs = us := by
  constructor
  · intro h
    obtain ⟨⟨p, _⟩, vs, rfl, rfl, hvs⟩ := List.map_eq_cons_iff.1 h
    exact ⟨p, vs, rfl, hvs⟩
  · rintro ⟨p, vs, rfl, rfl⟩
    rfl

theorem values_eq_singleton {ts : List (Located Token)} {t : Token} :
    values ts = [t] ↔ ∃ p, ts = [⟨p, t⟩] := by
  rw [values_eq_cons]
  simp

/-! ## What has been read is spelled -/

/-- What is so of the name tables in which identifiers are looked up. -/
structure Scope (refers : String → RuleId → Prop) where
  Table : NameTable → Prop
  declare : ∀ {t : NameTable} (name : String), Table t → Table (t.declare name)
  refers_of_find : ∀ {t : NameTable} {name : String} {r s : RuleId}, Table t → refers name s →
    t.find? name = some r → refers name r

/-- Every identifier refers to a rule. -/
def Resolved (refers : String → RuleId → Prop) (ts : List (Located Token)) : Prop :=
  ∀ name, .identifier name ∈ values ts → ∃ r, refers name r

theorem Resolved.suffix {us ts : List (Located Token)} (h : Resolved refers ts) (hsuffix : us <:+ ts) :
    Resolved refers us :=
  fun name hname => h name ((hsuffix.map _).subset hname)

/-- A phrase has been read from the first of some tokens. -/
structure Took (S : Scope refers) (role : Role) (ts : List (Located Token)) (v : Phrase)
    (names : NameTable) (rest : List (Located Token)) : Prop where
  table : S.Table names
  spelled : ∃ us, ts = us ++ rest ∧ Spells refers role (values us) v

theorem classRanges_spec {close : Position} : ∀ {members : List (Located ClassMember)}
    {ranges : List (UInt32 × UInt32)}, classRanges close members = .ok ranges →
      Ranges (members.map (·.value)) ranges := by
  intro members
  fun_induction classRanges close members with
  | case1 =>
    rintro _ ⟨⟩
    exact .nil
  | case2 => simp
  | case3 _ lo _ _ hi rest hle ih =>
    intro ranges h
    obtain ⟨ranges, hranges, rfl⟩ := Except.map_eq_ok.1 h
    exact .range (UInt32.not_lt.1 hle) (ih hranges)
  | case4 _ m rest hdash ih =>
    intro ranges h
    obtain ⟨ranges, hranges, rfl⟩ := Except.map_eq_ok.1 h
    refine .single (fun hi members heq => ?_) (ih hranges)
    obtain ⟨⟨_, _⟩, rest, rfl, rfl, hrest⟩ := List.map_eq_cons_iff.1 heq
    obtain ⟨⟨_, _⟩, rest, rfl, rfl, -⟩ := List.map_eq_cons_iff.1 hrest
    exact hdash _ _ _ _ rfl

theorem bound_spec {ts rest : List (Located Token)} {n : UInt32} (h : bound ts = .ok (n, rest)) :
    ∃ p, ts = ⟨p, .integer n.toNat⟩ :: rest := by
  unfold bound at h
  split at h
  · split at h
    · rename_i p m _ hm
      obtain ⟨rfl, rfl⟩ := by simpa using h
      exact ⟨p, by rw [UInt32.toNat_ofNat_of_lt' hm]⟩
    · simp [faultAt] at h
  · simp [faultAt] at h

theorem bounds_spec {p : Position} {ts rest : List (Located Token)} {least : UInt32}
    {most : Option UInt32} (h : bounds ts = .ok ((least, most), rest)) :
    ∃ us, ⟨p, .leftBrace⟩ :: ts = us ++ rest ∧ Bounds (values us) least most := by
  rw [bounds, Except.bind_eq_ok] at h
  obtain ⟨⟨m, us⟩, hbound, h⟩ := h
  obtain ⟨q, rfl⟩ := bound_spec hbound
  dsimp only at h
  split at h
  · obtain ⟨⟨rfl, rfl⟩, rfl⟩ := by simpa [pure, Except.pure] using h
    exact ⟨[_, _, _], rfl, .exactly⟩
  · obtain ⟨⟨rfl, rfl⟩, rfl⟩ := by simpa [pure, Except.pure] using h
    exact ⟨[_, _, _, _], rfl, .atLeast⟩
  · rw [Except.bind_eq_ok] at h
    obtain ⟨⟨n, vs⟩, hbound, h⟩ := h
    obtain ⟨q, rfl⟩ := bound_spec hbound
    dsimp only at h
    split at h
    · simp [faultAt] at h
    · rename_i hle
      split at h
      · obtain ⟨⟨rfl, rfl⟩, rfl⟩ := by simpa [pure, Except.pure] using h
        exact ⟨[_, _, _, _, _], rfl, .between (UInt32.not_lt.1 hle)⟩
      · simp [faultAt] at h
  · simp [faultAt] at h

theorem table_quantify {S : Scope refers} {n : Nat} {rule : String} {p : Parsed n Phrase}
    {least : UInt32} {most : Option UInt32} {rest : List (Located Token)} {h : rest.length < n}
    (hp : S.Table p.names) : S.Table (quantify rule p least most rest h).names := by
  unfold quantify
  split
  · exact S.declare _ hp
  · exact hp

mutual

theorem element_spec (S : Scope refers) (rule : String) (names : NameTable)
    (ts : List (Located Token)) {p : Parsed ts.length Phrase} (hS : S.Table names)
    (hts : Resolved refers ts) (h : element rule names ts = .ok p) :
    Took S .element ts p.value p.names p.rest := by
  rw [element.eq_def] at h
  split at h
  · simp [faultAt] at h
  · rename_i t us
    obtain ⟨q, t⟩ := t
    dsimp only at h
    split at h
    · split at h
      · obtain rfl := Except.ok.inj h
        exact ⟨hS, [_, _], rfl, .unit⟩
      · split at h
        · cases h
        · rename_i p' hp
          have took := choice_spec S rule names us hS (hts.suffix (List.suffix_cons _ _)) hp
          split at h
          · rename_i close rest hrest
            obtain rfl := Except.ok.inj h
            obtain ⟨vs, hvs, hspells⟩ := took.spelled
            rw [hrest] at hvs
            refine ⟨took.table, ⟨q, .leftParen⟩ :: (vs ++ [⟨close, .rightParen⟩]), ?_, ?_⟩
            · simp [hvs]
            · simpa using hspells.group
          · simp [faultAt] at h
    · obtain ⟨ranges, hranges, rfl⟩ := Except.map_eq_ok.1 h
      exact ⟨hS, [_], rfl, .charClass (classRanges_spec hranges)⟩
    · rename_i text
      obtain rfl := Except.ok.inj h
      refine ⟨hS, [_], rfl, ?_⟩
      by_cases htext : text = ""
      · subst htext
        exact .emptyLiteral
      · have : text.isEmpty = false := by simpa using htext
        simp only [this, Bool.false_eq_true, if_false]
        exact .literal htext
    · rename_i name
      split at h
      · rename_i r hr
        obtain rfl := Except.ok.inj h
        obtain ⟨s, hs⟩ := hts name (by simp)
        exact ⟨hS, [_], rfl, .identifier (S.refers_of_find hS hs hr)⟩
      · cases h
    · cases h
termination_by (ts.length, 0)

theorem quantified_spec (S : Scope refers) (rule : String) (names : NameTable)
    (ts : List (Located Token)) {p : Parsed ts.length Phrase} (hS : S.Table names)
    (hts : Resolved refers ts) (h : quantified rule names ts = .ok p) :
    Took S .item ts p.value p.names p.rest := by
  rw [quantified] at h
  split at h
  · cases h
  · rename_i p' hp
    have took := element_spec S rule names ts hS hts hp
    have marked {least : UInt32} {most : Option UInt32} (us : List (Located Token))
        {rest : List (Located Token)} {hlt : rest.length < ts.length} (hrest : p'.rest = us ++ rest)
        (hus : Bounds (values us) least most) :
        Took S .item ts (.quantified p'.value least most)
          (quantify rule p' least most rest hlt).names rest := by
      obtain ⟨vs, hvs, hspells⟩ := took.spelled
      rw [hrest] at hvs
      refine ⟨table_quantify took.table, vs ++ us, by simp [hvs], ?_⟩
      simpa using hspells.quantified hus
    split at h
    · rename_i q rest hrest
      obtain rfl := Except.ok.inj h
      exact marked [⟨q, .star⟩] hrest .star
    · rename_i q rest hrest
      obtain rfl := Except.ok.inj h
      exact marked [⟨q, .plus⟩] hrest .plus
    · rename_i q rest hrest
      obtain rfl := Except.ok.inj h
      exact marked [⟨q, .question⟩] hrest .question
    · rename_i q rest hrest
      split at h
      · cases h
      · rename_i hbounds
        obtain rfl := Except.ok.inj h
        obtain ⟨us, hus, hspells⟩ := bounds_spec (p := q) hbounds
        exact marked us (hrest.trans hus) hspells
    · obtain rfl := Except.ok.inj h
      obtain ⟨vs, hvs, hspells⟩ := took.spelled
      exact ⟨took.table, vs, hvs, hspells.plain⟩
termination_by (ts.length, 1)

theorem sequence_spec (S : Scope refers) (rule : String) (names : NameTable)
    (ts : List (Located Token)) {p : Parsed ts.length (List Phrase)} (hS : S.Table names)
    (hts : Resolved refers ts) (h : sequence rule names ts = .ok p) :
    Took S .sequence ts (.sequence p.value) p.names p.rest := by
  rw [sequence] at h
  split at h
  · cases h
  · rename_i p' hp
    have took := quantified_spec S rule names ts hS hts hp
    obtain ⟨us, hus, hspells⟩ := took.spelled
    split at h
    · obtain rfl := Except.ok.inj h
      exact ⟨took.table, us, hus, hspells.last⟩
    · split at h
      · cases h
      · rename_i q hq
        have shorter := p'.shorter
        have more := sequence_spec S rule p'.names p'.rest took.table
          (hts.suffix ⟨us, hus.symm⟩) hq
        obtain rfl := Except.ok.inj h
        obtain ⟨vs, hvs, hmore⟩ := more.spelled
        rw [hvs] at hus
        refine ⟨more.table, us ++ vs, by simp [hus], ?_⟩
        simpa using hspells.further hmore
termination_by (ts.length, 2)

theorem alternatives_spec (S : Scope refers) (rule : String) (names : NameTable)
    (ts : List (Located Token)) {p : Parsed ts.length (List Phrase)} (hS : S.Table names)
    (hts : Resolved refers ts) (h : alternatives rule names ts = .ok p) :
    Took S .choice ts (.choice p.value) p.names p.rest := by
  rw [alternatives] at h
  split at h
  · cases h
  · rename_i p' hp
    have took := sequence_spec S rule names ts hS hts hp
    obtain ⟨us, hus, hspells⟩ := took.spelled
    split at h
    · rename_i place rest hrest
      rw [hrest] at hus
      split at h
      · cases h
      · rename_i q hq
        have shorter : rest.length < ts.length := by simp [hus]; omega
        have more := alternatives_spec S rule p'.names rest took.table
          (hts.suffix ⟨us ++ [⟨place, .pipe⟩], by simp [hus]⟩) hq
        obtain rfl := Except.ok.inj h
        obtain ⟨vs, hvs, hmore⟩ := more.spelled
        rw [hvs] at hus
        refine ⟨more.table, us ++ ⟨place, .pipe⟩ :: vs, by simp [hus], ?_⟩
        simpa using hspells.bar hmore
    · obtain rfl := Except.ok.inj h
      exact ⟨took.table, us, hus, hspells.only⟩
termination_by (ts.length, 3)

theorem choice_spec (S : Scope refers) (rule : String) (names : NameTable)
    (ts : List (Located Token)) {p : Parsed ts.length Phrase} (hS : S.Table names)
    (hts : Resolved refers ts) (h : choice rule names ts = .ok p) :
    Took S .choice ts p.value p.names p.rest := by
  rw [choice] at h
  obtain ⟨q, hq, rfl⟩ := Except.map_eq_ok.1 h
  exact alternatives_spec S rule names ts hS hts hq
termination_by (ts.length, 4)

end

theorem lookahead_spec (S : Scope refers) {rule : String} {names : NameTable}
    {ts : List (Located Token)} {n : Nat} {hn : ts.length < n} {p : Parsed n (Option Phrase)}
    (hS : S.Table names) (hts : Resolved refers ts) (h : lookahead rule names ts hn = .ok p) :
    S.Table p.names ∧ ∃ us, ts = us ++ p.rest ∧ SpellsLookahead refers (values us) p.value := by
  rw [lookahead.eq_def] at h
  split at h
  · rename_i place us _
    split at h
    · cases h
    · rename_i q hq
      have took := choice_spec S rule names us hS (hts.suffix (List.suffix_cons _ _)) hq
      split at h
      · rename_i close rest hrest
        obtain rfl := Except.ok.inj h
        obtain ⟨vs, hvs, hspells⟩ := took.spelled
        rw [hrest] at hvs
        refine ⟨took.table, ⟨place, .leftLookahead⟩ :: (vs ++ [⟨close, .rightParen⟩]), ?_, ?_⟩
        · simp [hvs]
        · simpa using SpellsLookahead.phrase hspells
      · simp [faultAt] at h
  · obtain rfl := Except.ok.inj h
    exact ⟨hS, [], rfl, .nothing⟩

/-- Every rule name refers to what it is found as. -/
def Scope.Titles (S : Scope refers) (ts : List (Located Token)) : Prop :=
  ∀ name, .ruleName name ∈ values ts → ∀ t, S.Table t → refers name ((t.find? name).getD 0)

theorem Scope.Titles.suffix {S : Scope refers} {us ts : List (Located Token)} (h : S.Titles ts)
    (hsuffix : us <:+ ts) : S.Titles us :=
  fun name hname => h name ((hsuffix.map _).subset hname)

theorem declaration_spec (S : Scope refers) {names : NameTable} {ts : List (Located Token)}
    {p : Parsed ts.length Declaration} (hS : S.Table names) (hts : Resolved refers ts)
    (htitles : S.Titles ts) (h : declaration names ts = .ok p) :
    S.Table p.names ∧ ∃ us, ts = us ++ p.rest ∧ SpellsRule refers (values us) p.value := by
  rw [declaration.eq_def] at h
  split at h
  · rename_i place name place' us
    have hus : Resolved refers us := hts.suffix ⟨[_, _], rfl⟩
    split at h
    · cases h
    · rename_i q hq
      have took := choice_spec S name names us hS hus hq
      obtain ⟨vs, hvs, hbody⟩ := took.spelled
      obtain ⟨l, hl, rfl⟩ := Except.map_eq_ok.1 h
      obtain ⟨table, ws, hws, hlookahead⟩ :=
        lookahead_spec S took.table (hus.suffix ⟨vs, hvs.symm⟩) hl
      refine ⟨table, ⟨place, .ruleName name⟩ :: ⟨place', .assign⟩ :: (vs ++ ws), ?_, ?_⟩
      · simp [hvs, hws]
      · simpa using SpellsRule.rule (htitles name (by simp) names hS) hbody hlookahead
  · simp [faultAt] at h
  · simp [faultAt] at h

theorem declarations_spec (S : Scope refers) : ∀ (names : NameTable) (ts : List (Located Token))
    (ds : List Declaration), S.Table names → Resolved refers ts → S.Titles ts →
      declarations names ts = .ok ds → ∃ us rest, ts = us ++ rest ∧
        (next rest).value = .endOfFile ∧ SpellsRules refers (values us) ds := by
  intro names ts
  fun_induction declarations names ts with
  | case1 names ts hend =>
    rintro _ - - - ⟨⟩
    exact ⟨[], ts, rfl, hend, .nil⟩
  | case2 => simp
  | case3 names ts p hp _ _ ih =>
    intro ds hS hts htitles h
    obtain ⟨ds, hds, rfl⟩ := Except.map_eq_ok.1 h
    obtain ⟨table, us, hus, hrule⟩ := declaration_spec S hS hts htitles hp
    obtain ⟨vs, rest, hvs, hend, hrules⟩ :=
      ih ds table (hts.suffix ⟨us, hus.symm⟩) (htitles.suffix ⟨us, hus.symm⟩) hds
    refine ⟨us ++ vs, rest, by rw [hus, hvs, List.append_assoc], hend, ?_⟩
    simpa using SpellsRules.cons hrule hrules

/-! ## What is spelled is read -/

/-- A table finds what names refer to. -/
def Knows (refers : String → RuleId → Prop) (t : NameTable) : Prop :=
  ∀ name r, refers name r → t.find? name = some r

theorem Knows.declare {t : NameTable} (h : Knows refers t) (name : String) :
    Knows refers (t.declare name) :=
  fun other r hr => NameTable.find?_declare_of_eq_some (h other r hr) name

/-- The tokens with which an element starts. -/
def startsElement : Token → Bool
  | .leftParen | .charClass .. | .literal _ | .identifier _ => true
  | _ => false

/-- The tokens with which a quantifier starts. -/
def startsQuantifier : Token → Bool
  | .star | .plus | .question | .leftBrace => true
  | _ => false

/-- The tokens before which a phrase is known to have ended. -/
def Role.endsBefore : Role → Token → Bool
  | .element, _ => true
  | .item, t => ! startsQuantifier t
  | .sequence, t => endsSequence t
  | .choice, t => endsSequence t && t != .pipe

theorem not_startsQuantifier_of_endsSequence {t : Token} (h : endsSequence t = true) :
    startsQuantifier t = false := by
  cases t <;> simp_all [endsSequence, startsQuantifier]

theorem not_startsQuantifier_of_startsElement {t : Token} (h : startsElement t = true) :
    startsQuantifier t = false := by
  cases t <;> simp_all [startsElement, startsQuantifier]

theorem not_endsSequence_of_startsElement {t : Token} (h : startsElement t = true) :
    endsSequence t = false := by
  cases t <;> simp_all [startsElement, endsSequence]

/-- What is spelled starts with an element. -/
theorem Spells.start {role : Role} {ts : List Token} {p : Phrase} (h : Spells refers role ts p) :
    ∃ t us, ts = t :: us ∧ startsElement t = true := by
  induction h with
  | unit | emptyLiteral | literal | charClass | identifier | group => exact ⟨_, _, rfl, rfl⟩
  | plain _ ih | last _ ih | only _ ih => exact ih
  | quantified _ _ ih | further _ _ ih | bar _ _ ih =>
    obtain ⟨t, us, rfl, ht⟩ := ih
    exact ⟨t, _, rfl, ht⟩

/-- Reads a phrase. -/
def read (rule : String) (names : NameTable) (ts : List (Located Token)) :
    Role → Except Fault (Parsed ts.length Phrase)
  | .element => element rule names ts
  | .item => quantified rule names ts
  | .sequence =>
    match sequence rule names ts with
    | .error e => .error e
    | .ok ⟨ps, names', rest, h⟩ => .ok ⟨.sequence ps, names', rest, h⟩
  | .choice => choice rule names ts

private theorem sequence_of_read {rule : String} {names names' : NameTable}
    {ts rest : List (Located Token)} {p : Phrase} {h : rest.length < ts.length}
    (hread : read rule names ts .sequence = .ok ⟨p, names', rest, h⟩) :
    ∃ ps, p = .sequence ps ∧ sequence rule names ts = .ok ⟨ps, names', rest, h⟩ := by
  rw [read] at hread
  split at hread
  · cases hread
  · rename_i ps _ _ _ hq
    cases hread
    exact ⟨ps, rfl, hq⟩

private theorem alternatives_of_read {rule : String} {names names' : NameTable}
    {ts rest : List (Located Token)} {ps : List Phrase} {h : rest.length < ts.length}
    (hread : read rule names ts .choice = .ok ⟨.choice ps, names', rest, h⟩) :
    alternatives rule names ts = .ok ⟨ps, names', rest, h⟩ := by
  rw [read, choice, Except.map_eq_ok] at hread
  obtain ⟨⟨_, _, _, _⟩, hq, heq⟩ := hread
  cases heq
  exact hq

/-- Reading comes to a phrase and a table that still knows what names refer to. -/
def Yields {α : Type} {n : Nat} (refers : String → RuleId → Prop) (outcome : Except Fault (Parsed n α))
    (v : α) (rest : List (Located Token)) : Prop :=
  ∃ names h, Knows refers names ∧ outcome = .ok ⟨v, names, rest, h⟩

theorem classRanges_of_ranges {ms : List ClassMember} {ranges : List (UInt32 × UInt32)}
    (h : Ranges ms ranges) : ∀ {members : List (Located ClassMember)} {close : Position},
      members.map (·.value) = ms → classRanges close members = .ok ranges := by
  induction h with
  | nil =>
    intro members close hms
    obtain rfl := List.map_eq_nil_iff.1 hms
    rfl
  | range hle _ ih =>
    intro members close hms
    obtain ⟨⟨_, _⟩, us, rfl, rfl, hus⟩ := List.map_eq_cons_iff.1 hms
    obtain ⟨⟨_, _⟩, vs, rfl, hdash, hvs⟩ := List.map_eq_cons_iff.1 hus
    obtain ⟨⟨_, _⟩, ws, rfl, rfl, hws⟩ := List.map_eq_cons_iff.1 hvs
    cases hdash
    simp only [classRanges, UInt32.not_lt.2 hle, if_false, ih hws, Except.map]
  | single hdash _ ih =>
    intro members close hms
    obtain ⟨⟨_, m⟩, us, rfl, rfl, hus⟩ := List.map_eq_cons_iff.1 hms
    rw [classRanges, ih hus]
    · rfl
    · rintro _ _ _ _ rfl
      exact hdash _ _ hus.symm

theorem Spells.startsElement_next {role : Role} {us : List Token} {p : Phrase}
    (h : Spells refers role us p) {ts : List (Located Token)} (hts : values ts = us)
    (rest : List (Located Token)) : startsElement (next (ts ++ rest)).value = true := by
  obtain ⟨t, _, rfl, ht⟩ := h.start
  obtain ⟨_, _, rfl, -⟩ := values_eq_cons.1 hts
  exact ht

theorem yields_group {rule : String} {names : NameTable} {place close : Position}
    {us rest : List (Located Token)} {p : Phrase}
    (h : Yields refers (choice rule names us) p (⟨close, .rightParen⟩ :: rest))
    (hus : (next us).value ≠ .rightParen) :
    Yields refers (element rule names (⟨place, .leftParen⟩ :: us)) p rest := by
  obtain ⟨names', hlt, hknows, hread⟩ := h
  simp only [List.length_cons] at hlt
  refine ⟨names', by simp only [List.length_cons]; omega, hknows, ?_⟩
  rw [element.eq_def]
  dsimp only
  split
  · exact absurd rfl hus
  · rw [hread]

theorem yields_plain {rule : String} {names : NameTable} {ts rest : List (Located Token)} {p : Phrase}
    (h : Yields refers (element rule names ts) p rest)
    (hrest : startsQuantifier (next rest).value = false) :
    Yields refers (quantified rule names ts) p rest := by
  obtain ⟨names', hlt, hknows, hread⟩ := h
  refine ⟨names', hlt, hknows, ?_⟩
  rw [quantified, hread]
  dsimp only
  split
  · cases hrest
  · cases hrest
  · cases hrest
  · cases hrest
  · rfl

theorem bound_toNat {place : Position} {n : UInt32} {rest : List (Located Token)} :
    bound (⟨place, .integer n.toNat⟩ :: rest) = .ok (n, rest) := by
  have : n.toNat < 0x100000000 := n.toNat_lt
  simp [bound, this]

theorem bounds_append {us : List (Located Token)} {least : UInt32} {most : Option UInt32}
    (h : Bounds (.leftBrace :: values us) least most) (rest : List (Located Token)) :
    bounds (us ++ rest) = .ok ((least, most), rest) := by
  generalize hvs : Token.leftBrace :: values us = vs at h
  cases h with
  | star | plus | question => cases (List.cons.inj hvs).1
  | exactly =>
    obtain ⟨_, us, rfl, hus⟩ := values_eq_cons.1 (List.cons.inj hvs).2
    obtain ⟨_, rfl⟩ := values_eq_singleton.1 hus
    simp [bounds, bound_toNat, bind, Except.bind, pure, Except.pure]
  | atLeast =>
    obtain ⟨_, us, rfl, hus⟩ := values_eq_cons.1 (List.cons.inj hvs).2
    obtain ⟨_, ws, rfl, hws⟩ := values_eq_cons.1 hus
    obtain ⟨_, rfl⟩ := values_eq_singleton.1 hws
    simp [bounds, bound_toNat, bind, Except.bind, pure, Except.pure]
  | between hle =>
    obtain ⟨_, us, rfl, hus⟩ := values_eq_cons.1 (List.cons.inj hvs).2
    obtain ⟨_, ws, rfl, hws⟩ := values_eq_cons.1 hus
    obtain ⟨_, xs, rfl, hxs⟩ := values_eq_cons.1 hws
    obtain ⟨_, rfl⟩ := values_eq_singleton.1 hxs
    simp [bounds, bound_toNat, bind, Except.bind, pure, Except.pure, UInt32.not_lt.2 hle]

theorem yields_quantify {n : Nat} {rule : String} {p : Parsed n Phrase} (h : Knows refers p.names)
    (least : UInt32) (most : Option UInt32) (rest : List (Located Token)) (hlt : rest.length < n) :
    Yields refers (.ok (quantify rule p least most rest hlt)) (.quantified p.value least most) rest := by
  refine ⟨_, hlt, ?_, rfl⟩
  split
  · exact h.declare _
  · exact h

theorem yields_quantified {rule : String} {names : NameTable} {ts us rest : List (Located Token)}
    {p : Phrase} {least : UInt32} {most : Option UInt32}
    (h : Yields refers (element rule names ts) p (us ++ rest)) (hus : Bounds (values us) least most) :
    Yields refers (quantified rule names ts) (.quantified p least most) rest := by
  obtain ⟨names', hlt, hknows, hread⟩ := h
  have braces {place : Position} {vs : List (Located Token)} (heq : us = ⟨place, .leftBrace⟩ :: vs) :
      Yields refers (quantified rule names ts) (.quantified p least most) rest := by
    subst heq
    have hbounds := bounds_append hus rest
    rw [quantified, hread]
    dsimp only [List.cons_append]
    split
    · rename_i herror
      cases hbounds.symm.trans herror
    · rename_i hok
      cases hbounds.symm.trans hok
      exact yields_quantify hknows _ _ _ _
  generalize hvalues : values us = vs at hus
  cases hus with
  | star =>
    obtain ⟨_, rfl⟩ := values_eq_singleton.1 hvalues
    rw [quantified, hread]
    exact yields_quantify hknows _ _ _ _
  | plus =>
    obtain ⟨_, rfl⟩ := values_eq_singleton.1 hvalues
    rw [quantified, hread]
    exact yields_quantify hknows _ _ _ _
  | question =>
    obtain ⟨_, rfl⟩ := values_eq_singleton.1 hvalues
    rw [quantified, hread]
    exact yields_quantify hknows _ _ _ _
  | exactly | atLeast | between =>
    obtain ⟨_, vs, heq, -⟩ := values_eq_cons.1 hvalues
    exact braces heq

section

variable {rule : String} {names : NameTable} {ts us rest : List (Located Token)} {p : Phrase}
  {ps : List Phrase}

theorem yields_last (h : Yields refers (quantified rule names ts) p rest)
    (hrest : endsSequence (next rest).value = true) :
    Yields refers (read rule names ts .sequence) (.sequence [p]) rest := by
  obtain ⟨names', hlt, hknows, hread⟩ := h
  refine ⟨names', hlt, hknows, ?_⟩
  rw [read, sequence, hread]
  simp [hrest]

theorem yields_further (h : Yields refers (quantified rule names ts) p us)
    (hus : endsSequence (next us).value = false)
    (hs : ∀ names, Knows refers names → Yields refers (read rule names us .sequence) (.sequence ps) rest) :
    Yields refers (read rule names ts .sequence) (.sequence (p :: ps)) rest := by
  obtain ⟨names', hlt, hknows, hread⟩ := h
  obtain ⟨names'', hlt', hknows', hmore⟩ := hs names' hknows
  obtain ⟨_, ⟨⟩, hmore⟩ := sequence_of_read hmore
  refine ⟨names'', hlt'.trans hlt, hknows', ?_⟩
  rw [read, sequence, hread]
  simp [hus, hmore]

theorem yields_only (h : Yields refers (read rule names ts .sequence) p rest)
    (hrest : (next rest).value ≠ .pipe) :
    Yields refers (read rule names ts .choice) (.choice [p]) rest := by
  obtain ⟨names', hlt, hknows, hread⟩ := h
  obtain ⟨_, rfl, hsequence⟩ := sequence_of_read hread
  refine ⟨names', hlt, hknows, ?_⟩
  rw [read, choice, alternatives, hsequence]
  dsimp only
  split
  · exact absurd rfl hrest
  · rfl

theorem yields_bar {place : Position}
    (h : Yields refers (read rule names ts .sequence) p (⟨place, .pipe⟩ :: us))
    (hs : ∀ names, Knows refers names → Yields refers (read rule names us .choice) (.choice ps) rest) :
    Yields refers (read rule names ts .choice) (.choice (p :: ps)) rest := by
  obtain ⟨names', hlt, hknows, hread⟩ := h
  obtain ⟨names'', hlt', hknows', hmore⟩ := hs names' hknows
  obtain ⟨_, rfl, hsequence⟩ := sequence_of_read hread
  refine ⟨names'', by simp only [List.length_cons] at hlt; omega, hknows', ?_⟩
  rw [read, choice, alternatives, hsequence]
  simp [alternatives_of_read hmore, Except.map]

end

/-- What is spelled is read, whatever follows that is known to end it. -/
theorem yields_read {role : Role} {us : List Token} {p : Phrase} (h : Spells refers role us p) :
    ∀ (ts rest : List (Located Token)) (rule : String) (names : NameTable), values ts = us →
      Knows refers names → role.endsBefore (next rest).value = true →
        Yields refers (read rule names (ts ++ rest) role) p rest := by
  induction h with
  | unit =>
    intro ts rest rule names hts hknows _
    obtain ⟨_, us, rfl, hus⟩ := values_eq_cons.1 hts
    obtain ⟨_, rfl⟩ := values_eq_singleton.1 hus
    exact ⟨names, by simp only [List.length_append, List.length_cons]; omega, hknows,
      by rw [read, element.eq_def]; rfl⟩
  | emptyLiteral =>
    intro ts rest rule names hts hknows _
    obtain ⟨_, rfl⟩ := values_eq_singleton.1 hts
    exact ⟨names, by simp, hknows, by rw [read, element.eq_def]; rfl⟩
  | literal h =>
    intro ts rest rule names hts hknows _
    obtain ⟨_, rfl⟩ := values_eq_singleton.1 hts
    exact ⟨names, by simp, hknows, by rw [read, element.eq_def]; simp [h]⟩
  | charClass h =>
    intro ts rest rule names hts hknows _
    obtain ⟨_, rfl⟩ := values_eq_singleton.1 hts
    exact ⟨names, by simp, hknows,
      by rw [read, element.eq_def]; simp [classRanges_of_ranges h, Except.map]⟩
  | identifier h =>
    intro ts rest rule names hts hknows _
    obtain ⟨_, rfl⟩ := values_eq_singleton.1 hts
    exact ⟨names, by simp, hknows, by rw [read, element.eq_def]; simp [hknows _ _ h]⟩
  | group h ih =>
    intro ts rest rule names hts hknows _
    obtain ⟨place, us, rfl, hus⟩ := values_eq_cons.1 hts
    obtain ⟨vs, ws, rfl, hvs, hws⟩ := List.map_eq_append_iff.1 hus
    obtain ⟨close, rfl⟩ := values_eq_singleton.1 hws
    rw [List.cons_append, List.append_assoc]
    refine yields_group (ih vs _ rule names hvs hknows rfl) fun hnext => ?_
    have := h.startsElement_next hvs ([⟨close, .rightParen⟩] ++ rest)
    rw [hnext] at this
    cases this
  | plain h ih =>
    intro ts rest rule names hts hknows hend
    exact yields_plain (ih ts rest rule names hts hknows rfl) (by simpa [Role.endsBefore] using hend)
  | quantified h hbounds ih =>
    intro ts rest rule names hts hknows _
    obtain ⟨vs, ws, rfl, hvs, hws⟩ := List.map_eq_append_iff.1 hts
    rw [List.append_assoc]
    exact yields_quantified (ih vs _ rule names hvs hknows rfl) (by rwa [values, hws])
  | last h ih =>
    intro ts rest rule names hts hknows hend
    exact yields_last (ih ts rest rule names hts hknows
      (by simp [Role.endsBefore, not_startsQuantifier_of_endsSequence hend])) hend
  | further h hs ih ihs =>
    intro ts rest rule names hts hknows hend
    obtain ⟨vs, ws, rfl, hvs, hws⟩ := List.map_eq_append_iff.1 hts
    rw [List.append_assoc]
    have starts := hs.startsElement_next hws rest
    exact yields_further (ih vs (ws ++ rest) rule names hvs hknows
      (by simp [Role.endsBefore, not_startsQuantifier_of_startsElement starts]))
      (not_endsSequence_of_startsElement starts) fun names' hknows' =>
        ihs ws rest rule names' hws hknows' hend
  | only h ih =>
    intro ts rest rule names hts hknows hend
    have ends : endsSequence (next rest).value = true ∧ (next rest).value ≠ .pipe := by
      simpa [Role.endsBefore] using hend
    exact yields_only (ih ts rest rule names hts hknows ends.1) ends.2
  | bar h hs ih ihs =>
    intro ts rest rule names hts hknows hend
    obtain ⟨vs, ws, rfl, hvs, hws⟩ := List.map_eq_append_iff.1 hts
    obtain ⟨place, us, rfl, hus⟩ := values_eq_cons.1 hws
    rw [List.append_assoc, List.cons_append]
    exact yields_bar (ih vs _ rule names hvs hknows rfl) fun names' hknows' =>
      ihs us rest rule names' hus hknows' hend

theorem yields_lookahead {us : List Token} {l : Option Phrase} (h : SpellsLookahead refers us l)
    {ts rest all : List (Located Token)} (rule : String) {names : NameTable} {n : Nat}
    (hn : all.length < n) (hts : values ts = us) (hall : all = ts ++ rest)
    (hknows : Knows refers names) (hrest : (next rest).value ≠ .leftLookahead) :
    Yields refers (lookahead rule names all hn) l rest := by
  cases h with
  | nothing =>
    obtain rfl := List.map_eq_nil_iff.1 hts
    rw [List.nil_append] at hall
    subst hall
    refine ⟨names, hn, hknows, ?_⟩
    rw [lookahead.eq_def]
    split
    · exact absurd (by rfl) hrest
    · rfl
  | phrase h =>
    obtain ⟨place, us, rfl, hus⟩ := values_eq_cons.1 hts
    obtain ⟨vs, ws, rfl, hvs, hws⟩ := List.map_eq_append_iff.1 hus
    obtain ⟨close, rfl⟩ := values_eq_singleton.1 hws
    rw [List.cons_append, List.append_assoc, List.singleton_append] at hall
    subst hall
    obtain ⟨names', hlt, hknows, hread⟩ :=
      yields_read h vs (⟨close, .rightParen⟩ :: rest) rule names hvs hknows rfl
    refine ⟨names', by simp only [List.length_cons, List.length_append] at hn; omega, hknows, ?_⟩
    rw [read] at hread
    rw [lookahead, hread]

/-- A phrase has ended where a lookahead may follow it and then `rest`. -/
private theorem endsBefore_lookahead {us : List Token} {l : Option Phrase}
    (h : SpellsLookahead refers us l) {ts rest : List (Located Token)} (hts : values ts = us)
    (hrest : Role.choice.endsBefore (next rest).value = true) :
    Role.choice.endsBefore (next (ts ++ rest)).value = true := by
  cases h with
  | nothing =>
    obtain rfl := List.map_eq_nil_iff.1 hts
    exact hrest
  | phrase h =>
    obtain ⟨place, us, rfl, -⟩ := values_eq_cons.1 hts
    rfl

theorem yields_declaration {us : List Token} {d : Declaration} (h : SpellsRule refers us d)
    {ts rest : List (Located Token)} {names : NameTable} (hts : values ts = us)
    (hknows : Knows refers names) (hrest : Role.choice.endsBefore (next rest).value = true)
    (hlookahead : (next rest).value ≠ .leftLookahead) :
    Yields refers (declaration names (ts ++ rest)) d rest := by
  cases h with
  | @rule name _ _ _ _ _ hr hbody hl =>
    obtain ⟨_, us, rfl, hus⟩ := values_eq_cons.1 hts
    obtain ⟨_, vs, rfl, hvs⟩ := values_eq_cons.1 hus
    obtain ⟨ws, xs, rfl, hws, hxs⟩ := List.map_eq_append_iff.1 hvs
    rw [List.cons_append, List.cons_append, List.append_assoc]
    obtain ⟨names', hlt, hknows', hread⟩ := yields_read hbody ws (xs ++ rest) name names hws hknows
      (endsBefore_lookahead hl hxs hrest)
    obtain ⟨names'', hlt', hknows'', hread'⟩ :=
      yields_lookahead hl name hlt hxs rfl hknows' hlookahead
    refine ⟨names'', by simp only [List.length_cons]; omega, hknows'', ?_⟩
    rw [read] at hread
    simp only [declaration, hread, hread', Except.map, hknows _ _ hr, Option.getD_some]

private theorem SpellsRules.ends {us : List Token} {ds : List Declaration}
    (h : SpellsRules refers us ds) {ts rest : List (Located Token)} (hts : values ts = us)
    (hrest : (next rest).value = .endOfFile) :
    Role.choice.endsBefore (next (ts ++ rest)).value = true ∧
      (next (ts ++ rest)).value ≠ .leftLookahead := by
  cases h with
  | nil =>
    obtain rfl := List.map_eq_nil_iff.1 hts
    rw [List.nil_append, hrest]
    decide
  | cons h _ =>
    cases h with
    | rule =>
      obtain ⟨place, us, rfl, -⟩ := values_eq_cons.1 hts
      exact ⟨rfl, nofun⟩

theorem declarations_of_spells {us : List Token} {ds : List Declaration}
    (h : SpellsRules refers us ds) : ∀ {ts rest : List (Located Token)} {names : NameTable},
      values ts = us → Knows refers names → (next rest).value = .endOfFile →
        declarations names (ts ++ rest) = .ok ds := by
  induction h with
  | nil =>
    intro ts rest names hts _ hrest
    obtain rfl := List.map_eq_nil_iff.1 hts
    rw [declarations, List.nil_append, hrest]
  | cons h hs ih =>
    intro ts rest names hts hknows hrest
    obtain ⟨vs, ws, rfl, hvs, hws⟩ := List.map_eq_append_iff.1 hts
    rw [List.append_assoc]
    obtain ⟨hend, hlookahead⟩ := hs.ends hws hrest
    obtain ⟨names', hlt, hknows', hread⟩ := yields_declaration h hvs hknows hend hlookahead
    have : (next (vs ++ (ws ++ rest))).value ≠ .endOfFile := by
      cases h with
      | rule =>
        obtain ⟨_, _, rfl, -⟩ := values_eq_cons.1 hvs
        exact nofun
    rw [declarations.eq_def]
    split
    · exact absurd (by assumption) this
    · rw [hread]
      simp [ih hws hknows' hrest, Except.map]

end ConstrainedDecoding.Ebnf
