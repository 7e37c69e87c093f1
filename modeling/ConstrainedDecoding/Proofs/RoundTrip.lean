import ConstrainedDecoding.Proofs.Printing

/-!
# Reading printed grammars

The phrase of a flat tree is drawn as that tree and makes no rules. So the text of a grammar that
was read from a text is read as a grammar with the same names, root and trees.
-/
namespace ConstrainedDecoding

open Ebnf

/-! ## Drawing the phrases of trees -/

namespace Tree

variable {B : RuleId → Tree → Prop}

/-- A tree as the group that it is written as. -/
def asGroup : Tree → Tree
  | .sequence ts => .choice [.sequence ts]
  | t => t

theorem drawn_leaf {l : Leaf} (hl : l.Written) {u : Tree} (h : l.phrase.Drawn B u) : u = .leaf l := by
  cases l with
  | literal bytes =>
    obtain ⟨s, -, rfl⟩ := hl
    have decode : String.ofList ((Utf8.decode? (Utf8.ofString s)).getD []) = s := by
      rw [Utf8.ofString, Utf8.decode?_encode, Option.getD_some, String.ofList_toList]
    rw [Leaf.phrase, decode] at h
    simpa only [Phrase.Drawn] using h
  | charClassStar set =>
    simp only [Leaf.phrase, Phrase.Drawn, exists_eq_left] at h
    simpa [Repeated] using h
  | repetition r least most =>
    simp only [Leaf.phrase, Phrase.Drawn, exists_eq_left] at h
    simpa [Repeated] using h
  | empty | charClass | reference => simpa only [Leaf.phrase, Phrase.Drawn] using h

theorem asElements_of_flat {t : Tree} (h : t.Flat .item) : t.asGroup.asElements = [t] := by
  cases h with
  | leaf => rfl
  | group hlen _ => exact asElements_of_two_le hlen

theorem asAlternatives_of_flat {t : Tree} (h : t.Flat .sequence) : t.asAlternatives = [t] := by
  cases h with
  | @sequence ts _ hlone _ =>
    unfold asAlternatives
    split
    · rename_i us heq
      exact absurd (Tree.sequence.inj heq) (hlone us)
    · rfl

theorem drawn_sequence {ts : List Tree} (hts : ∀ t ∈ ts, t.Flat .item)
    (ih : ∀ t ∈ ts, ∀ u, t.phrase.Drawn B u → u = t.asGroup) : ∀ u,
      (Phrase.sequence (ts.map Tree.phrase)).Drawn B u → u = .sequence ts := by
  induction ts with
  | nil => exact fun u h => drawn_sequence_nil.1 h
  | cons t ts ihs =>
    intro u h
    obtain ⟨ht, hts⟩ := List.forall_mem_cons.1 hts
    obtain ⟨iht, ih⟩ := List.forall_mem_cons.1 ih
    obtain ⟨v, vs, hv, hvs, rfl⟩ := drawn_sequence_cons.1 h
    obtain rfl := iht v hv
    obtain rfl := Tree.sequence.inj (ihs hts ih _ hvs)
    rw [asElements_of_flat ht, List.singleton_append]

/-- An alternative that is only a group is drawn as the sequence in the group. -/
theorem drawn_single {t : Tree} (ht : t.Flat .sequence)
    (ih : ∀ u, t.phrase.Drawn B u → u = t.asGroup) {u : Tree}
    (h : (Phrase.sequence [t.phrase]).Drawn B u) : u = t := by
  obtain ⟨v, vs, hv, hvs, rfl⟩ := drawn_sequence_cons.1 h
  obtain rfl := ih v hv
  obtain rfl := Tree.sequence.inj (drawn_sequence_nil.1 hvs)
  cases ht with
  | sequence => simp [asGroup, asElements]

theorem drawn_choice {ts : List Tree} (hts : ∀ t ∈ ts, t.Flat .sequence)
    (ih : ∀ t ∈ ts, ∀ u, t.phrase.Drawn B u → u = t.asGroup) : ∀ u,
      (Phrase.choice (ts.map fun t => .sequence [t.phrase])).Drawn B u → u = .choice ts := by
  induction ts with
  | nil => exact fun u h => drawn_choice_nil.1 h
  | cons t ts ihs =>
    intro u h
    obtain ⟨ht, hts⟩ := List.forall_mem_cons.1 hts
    obtain ⟨iht, ih⟩ := List.forall_mem_cons.1 ih
    obtain ⟨v, vs, hv, hvs, rfl⟩ := drawn_choice_cons.1 h
    obtain rfl := Tree.choice.inj (ihs hts ih _ hvs)
    rw [drawn_single ht iht hv, asAlternatives_of_flat ht, List.singleton_append]

/-- The phrase of a flat tree is drawn as the group that the tree is written as. -/
theorem Flat.drawn {role : Role} {t : Tree} (h : t.Flat role) :
    ∀ u, t.phrase.Drawn B u → u = t.asGroup := by
  induction h with
  | leaf hl => exact fun u hu => drawn_leaf hl hu
  | group _ _ ih => exact ih
  | @sequence ts hne hlone hts ih =>
    intro u hu
    rw [phrase, phrases_eq] at hu
    obtain ⟨v, vs, hv, hvs, rfl⟩ := drawn_choice_cons.1 hu
    obtain rfl := drawn_sequence hts ih v hv
    obtain rfl := Tree.choice.inj (drawn_choice_nil.1 hvs)
    rw [asAlternatives_of_flat (.sequence hne hlone hts)]
    rfl
  | choice hne hts ih =>
    intro u hu
    rw [phrase, phrases_eq, List.map_map] at hu
    exact drawn_choice hts ih u hu

/-- A choice that stands alone is drawn as itself. -/
theorem Flat.drawn_alone {t u : Tree} (h : t.Flat .choice) (hu : t.alone.Drawn B u) : u = t := by
  obtain ⟨v, vs, hv, hvs, rfl⟩ := drawn_choice_cons.1 hu
  obtain rfl := Tree.choice.inj (drawn_choice_nil.1 hvs)
  obtain ⟨w, ws, hw, hws, rfl⟩ := drawn_sequence_cons.1 hv
  obtain rfl := Tree.sequence.inj (drawn_sequence_nil.1 hws)
  obtain rfl := h.drawn w hw
  cases h with
  | @choice ts hne hts =>
    match ts with
    | [t] =>
      have ht := hts t List.mem_cons_self
      cases ht with
      | sequence hitems hlone hflat =>
        rw [List.append_nil, List.append_nil]
        exact congrArg Tree.choice (asAlternatives_of_flat (.sequence hitems hlone hflat))
    | t :: u :: ts =>
      have elements : (Tree.choice (t :: u :: ts)).asGroup.asElements = [.choice (t :: u :: ts)] :=
        asElements_of_two_le (by simp)
      rw [elements, List.append_nil, List.append_nil]
      rfl

end Tree

/-! ## No new rules -/

/-- No quantified part of a phrase needs a rule. -/
def Ebnf.Phrase.Settled (p : Phrase) : Prop :=
  ∀ q least most, .quantified q least most ∈ p.parts → ∀ B u, q.Drawn B u → ¬ u.Hoists least most

private theorem Ebnf.settled_of_parts {ps : List Phrase} (h : ∀ p ∈ ps, p.Settled) {p : Phrase}
    (hp : ∀ q least most, .quantified q least most ∈ p.parts →
      .quantified q least most ∈ Phrase.partsOfAll ps) : p.Settled := by
  intro q least most hq
  obtain ⟨p, hp, hq⟩ := Phrase.mem_partsOfAll.1 (hp q least most hq)
  exact h p hp q least most hq

theorem Ebnf.settled_sequence {ps : List Phrase} (h : ∀ p ∈ ps, p.Settled) :
    (Phrase.sequence ps).Settled :=
  settled_of_parts h fun q least most hq => by simpa [Phrase.parts] using hq

theorem Ebnf.settled_choice {ps : List Phrase} (h : ∀ p ∈ ps, p.Settled) :
    (Phrase.choice ps).Settled :=
  settled_of_parts h fun q least most hq => by simpa [Phrase.parts] using hq

theorem Leaf.settled_phrase (l : Leaf) : l.phrase.Settled := by
  intro q least most hq B u hu
  cases l with
  | empty | literal | charClass | reference => simp [phrase, Phrase.parts] at hq
  | charClassStar set =>
    obtain ⟨rfl, rfl, rfl⟩ : q = .charClass set ∧ least = 0 ∧ most = none := by
      simpa [phrase, Phrase.parts] using hq
    simp only [Phrase.Drawn] at hu
    simp [hu, Tree.Hoists]
  | repetition r m n =>
    obtain ⟨rfl, -, -⟩ : q = .reference r ∧ least = m ∧ most = n := by
      simpa [phrase, Phrase.parts] using hq
    simp only [Phrase.Drawn] at hu
    simp [hu, Tree.Hoists]

mutual

theorem Tree.settled_phrase : ∀ t : Tree, t.phrase.Settled
  | .leaf l => l.settled_phrase
  | .sequence ts => by
    rw [phrase]
    exact settled_choice (by simpa using settled_sequence (Tree.settled_phrases ts))
  | .choice ts => by
    rw [phrase]
    refine settled_choice (List.forall_mem_map.2 fun p hp => settled_sequence ?_)
    simpa using Tree.settled_phrases ts p hp

theorem Tree.settled_phrases : ∀ ts : List Tree, ∀ p ∈ Tree.phrases ts, p.Settled
  | [] => by simp [phrases]
  | t :: ts => by
    rw [phrases]
    exact List.forall_mem_cons.2 ⟨t.settled_phrase, Tree.settled_phrases ts⟩

end

theorem Tree.settled_alone (t : Tree) : t.alone.Settled :=
  settled_choice (by simpa using settled_sequence (by simpa using t.settled_phrase))

/-! ## Grammars -/

namespace Grammar

variable {g g' : Grammar}

/-- What has to follow a rule, and whether exactly that. -/
def follower (g : Grammar) (r : RuleId) : Option (Tree × Bool) :=
  g.rules[r]?.bind (·.follower g.tree)

/-- The names, bodies and lookaheads of the rules, unfolded. -/
def outline (g : Grammar) : List (String × Tree × Option (Tree × Bool)) :=
  g.rules.toList.map fun r => (r.name, g.tree r.body, r.follower g.tree)

theorem names_outline (g : Grammar) : g.outline.map (·.1) = g.rules.toList.map (·.name) := by
  simp [outline, Function.comp_def]

theorem body_outline (g : Grammar) (r : RuleId) : g.body r = g.outline[r]?.map (·.2.1) := by
  simp [outline, body, Function.comp_def]

theorem follower_outline (g : Grammar) (r : RuleId) : g.follower r = g.outline[r]?.bind (·.2.2) := by
  rw [follower, outline, List.getElem?_map, Array.getElem?_toList]
  cases g.rules[r]? <;> rfl

theorem ruleName_outline (g : Grammar) (r : RuleId) : g.ruleName r = (g.outline[r]?.map (·.1)).getD "" := by
  rw [ruleName, outline, List.getElem?_map, Array.getElem?_toList]
  cases g.rules[r]? <;> rfl

/-- The line of a rule, given what is unfolded of it and the names of the rules. -/
def lineText (name : RuleId → String) (x : String × Tree × Option (Tree × Bool)) : String :=
  x.1 ++ " ::= " ++ x.2.1.text name ++
    match x.2.2 with
    | some (t, _) => " (= " ++ t.text name ++ ")"
    | none => ""

theorem text_outline (g : Grammar) : g.text = "\n".intercalate (g.outline.map (lineText g.ruleName)) := by
  have line (r : Rule) :
      g.ruleText g.tree r = lineText g.ruleName (r.name, g.tree r.body, r.follower g.tree) := by
    unfold ruleText lineText Rule.follower
    cases r.lookahead <;> rfl
  rw [outline, List.map_map]
  exact congrArg (String.intercalate "\n") (List.map_congr_left fun r _ => line r)

/-- A grammar's text says nothing but its outline. -/
theorem text_eq_of_outline (h : g'.outline = g.outline) : g'.text = g.text := by
  have names : g'.ruleName = g.ruleName := funext fun r => by rw [ruleName_outline, h, ← ruleName_outline]
  rw [text_outline, text_outline, h, names]

/-- The declarations of a grammar's text make no rules. -/
theorem not_hoisted (g : Grammar) (name : String) (t : Tree) : ¬ Hoisted g.declarations name t := by
  rintro ⟨d, hd, -, p, hp, q, least, most, B, u, hq, hu, hoists, -⟩
  obtain ⟨x, -, rfl⟩ := List.mem_map.1 hd
  have alone : ∃ u : Tree, p = u.alone := by
    rcases List.mem_cons.1 hp with rfl | hp
    · exact ⟨_, rfl⟩
    · obtain ⟨l, -, rfl⟩ := Option.map_eq_some_iff.1 (Option.mem_toList.1 hp)
      exact ⟨_, rfl⟩
  obtain ⟨v, rfl⟩ := alone
  exact v.settled_alone q least most hq B u hu hoists

variable {n : Nat} {k : RuleId} {r : Rule}

/-- A rule that has what is written of another has its name and trees. -/
theorem outline_of_hasRule (hr : r.Printable g) (h : g'.HasRule (Stands g' n) k (g.declaration k r).name
      (g.declaration k r).body ((g.declaration k r).lookahead.map (·, false))) :
    g'.outline[k]? = some (r.name, g.tree r.body, r.follower g.tree) := by
  obtain ⟨r', hr', hname, hbody, hrel⟩ := h
  have body : g'.tree r'.body = g.tree r.body := hr.body.drawn_alone hbody
  have follower : r'.follower g'.tree = r.follower g.tree := by
    unfold Rule.follower
    unfold declaration at hrel
    cases hl : r.lookahead with
    | none =>
      rw [hl] at hrel
      cases hl' : r'.lookahead with
      | none => rfl
      | some l' =>
        rw [hl'] at hrel
        cases hrel
    | some l =>
      rw [hl] at hrel
      cases hl' : r'.lookahead with
      | none =>
        rw [hl'] at hrel
        cases hrel
      | some l' =>
        rw [hl'] at hrel
        obtain ⟨hexact, hflat⟩ := hr.lookahead l hl
        cases hrel with
        | some h => simp [h.1, hexact, hflat.drawn_alone h.2]
  rw [outline, List.getElem?_map, Array.getElem?_toList, hr', Option.map_some, body, follower, hname]
  rfl

theorem naming_of_printable (hg : g.Printable) :
    Naming (NamesAt (g.declarations.map (·.name))) g.rules.size g.ruleName := by
  intro r hr
  have name : g.ruleName r = g.rules[r].name := by simp [ruleName, hr]
  rw [name]
  exact ⟨(hg.rules _ (Array.getElem_mem hr)).named, by simp [NamesAt, names_declarations, hr]⟩

/-- A grammar that can be printed is read from its text, up to the order in which its nodes stand. -/
theorem Printable.exists_parse (hg : g.Printable) {root : String}
    (hroot : (g.rules.toList.map (·.name))[g.root]? = some root) :
    ∃ g', parse g.text root = .ok g' ∧ g'.outline = g.outline ∧ g'.root = g.root := by
  have names := names_declarations g
  have nodup : (g.declarations.map (·.name)).Nodup := names ▸ hg.nodup
  have root_mem : root ∈ g.declarations.map (·.name) := names ▸ List.mem_of_getElem? hroot
  have size : g.declarations.length = g.rules.size := by simpa using congrArg List.length names
  obtain ⟨ts, us, hts, hus, hspells⟩ := exists_tokens_text hg (naming_of_printable hg)
    fun k r hk => by simp [NamesAt, names, hk]
  obtain ⟨g', hg', hfinish⟩ := Grammar.exists_parse hts ⟨us, hus, hspells⟩ nodup root_mem
  obtain ⟨completes, root_eq, stands⟩ := draft_spec
    (inOrder_of_namesAt (fun d hd => (hspells.spelled d hd).1) nodup) hfinish
  have le : g.rules.size ≤ g'.rules.size := by simpa [size] using completes.size_le
  have ge : g'.rules.size ≤ g.rules.size := by
    by_contra hlt
    have hlt : g.rules.size < g'.rules.size := Nat.lt_of_not_le hlt
    have hrule : g'.rules[g.rules.size]? = some g'.rules[g.rules.size] := by simp [hlt]
    obtain ⟨hoisted, -⟩ := completes.holds g.rules.size _ (by simp [size]) hlt hrule
    exact not_hoisted g _ _ hoisted
  refine ⟨g', hg', List.ext_getElem? fun k => ?_, ?_⟩
  · cases hk : g.rules[k]? with
    | none =>
      have : g'.rules[k]? = none := by
        rw [Array.getElem?_eq_none_iff] at hk ⊢
        omega
      simp [outline, hk, this]
    | some r =>
      have hd : g.declarations[k]? = some (g.declaration k r) := by
        rw [getElem?_declarations, hk, Option.map_some]
      rw [outline_of_hasRule (hg.rules r (Array.mem_of_getElem? hk)) (stands k _ hd)]
      simp [outline, hk]
  · obtain ⟨hlt, heq, -⟩ := List.findIdx?_eq_some_iff_getElem.1 (root_eq root_mem)
    rw [← names] at hroot
    obtain ⟨hlt', heq'⟩ := List.getElem?_eq_some_iff.1 hroot
    have same : (g.declarations.map (·.name))[g'.root] = (g.declarations.map (·.name))[g.root] := by
      rw [heq']
      simpa using heq
    exact nodup.getElem_inj_iff.1 same

/-- The text of a grammar that was read is read again, as a grammar with the same text, names, root,
bodies and lookaheads. -/
theorem parse_text_of_parse {text root : String} {g : Grammar} (h : parse text root = .ok g) :
    ∃ g', parse g.text root = .ok g' ∧ g'.text = g.text ∧
      g'.rules.toList.map (·.name) = g.rules.toList.map (·.name) ∧ g'.root = g.root ∧
        ∀ r, g'.body r = g.body r ∧ g'.follower r = g.follower r := by
  obtain ⟨hg, hroot⟩ := printable_of_parse h
  obtain ⟨g', hg', outline, root⟩ := hg.exists_parse hroot
  refine ⟨g', hg', text_eq_of_outline outline, ?_, root, fun r => ⟨?_, ?_⟩⟩
  · rw [← names_outline, outline, names_outline]
  · rw [body_outline, outline, ← body_outline]
  · rw [follower_outline, outline, ← follower_outline]

/-- A group within a group, a repeated choice of a class and the rule itself, and a lookahead. -/
def nestedText : String := "root ::= (\"\\n\" ([-^] | root)+) (= \"b\")"

/-- The declaration of `nestedText`. -/
def nestedRule : Declaration :=
  ⟨"root", 0, .choice [.sequence [.choice [.sequence [.literal "\n", .quantified (.choice
    [.sequence [.charClass ⟨false, [(0x2d, 0x2d), (0x5e, 0x5e)]⟩], .sequence [.reference 0]]) 1 none]]]],
    some (.choice [.sequence [.literal "b"]])⟩

theorem nestedText_reads_back : ∃ g g', parse nestedText "root" = .ok g ∧
    parse g.text "root" = .ok g' ∧ g'.text = g.text ∧
      g'.rules.toList.map (·.name) = g.rules.toList.map (·.name) ∧ g'.root = g.root ∧
        ∀ r, g'.body r = g.body r ∧ g'.follower r = g.follower r := by
  let members : List (Located ClassMember) := [⟨⟨1, 18⟩, .dash⟩, ⟨⟨1, 19⟩, .code 0x5e⟩]
  let ts : List (Located Token) :=
    [⟨⟨1, 1⟩, .ruleName "root"⟩, ⟨⟨1, 6⟩, .assign⟩, ⟨⟨1, 10⟩, .leftParen⟩, ⟨⟨1, 11⟩, .literal "\n"⟩,
      ⟨⟨1, 16⟩, .leftParen⟩, ⟨⟨1, 17⟩, .charClass false members ⟨1, 20⟩⟩, ⟨⟨1, 22⟩, .pipe⟩,
      ⟨⟨1, 24⟩, .identifier "root"⟩, ⟨⟨1, 28⟩, .rightParen⟩, ⟨⟨1, 29⟩, .plus⟩, ⟨⟨1, 30⟩, .rightParen⟩,
      ⟨⟨1, 32⟩, .leftLookahead⟩, ⟨⟨1, 35⟩, .literal "b"⟩, ⟨⟨1, 38⟩, .rightParen⟩, ⟨⟨1, 39⟩, .endOfFile⟩]
  have hts : Ebnf.tokens nestedText = .ok ts := by cbv
  have ranges : Ranges (members.map (·.value)) [(0x2d, 0x2d), (0x5e, 0x5e)] :=
    .single (m := .dash) (by simp) (.single (m := .code 0x5e) (by simp) .nil)
  have hdeclares : Declares (values ts) [nestedRule] := by
    refine ⟨values ts.dropLast, rfl, ?_⟩
    show SpellsRules _ ((Token.ruleName "root" :: Token.assign ::
      ((Token.leftParen :: (([Token.literal "\n"] ++
        ((Token.leftParen :: (([Token.charClass false members ⟨1, 20⟩] ++ Token.pipe :: [Token.identifier "root"]) ++
          [Token.rightParen])) ++ [Token.plus])) ++ [Token.rightParen])) ++
            (Token.leftLookahead :: ([Token.literal "b"] ++ [Token.rightParen])))) ++ []) _
    have self : Spells (NamesAt ([nestedRule].map (·.name))) .element [.identifier "root"] (.reference 0) :=
      .identifier rfl
    refine .cons (.rule rfl (.only (.last (.plain (.group (.only (.further
      (.plain (.literal (by decide))) (.last (.quantified (.group ?_) .plus))))))))
        (.phrase (.only (.last (.plain (.literal (by decide))))))) .nil
    exact .bar (.last (.plain (.charClass ranges))) (.only (.last (.plain self)))
  obtain ⟨g, hg, -⟩ := exists_parse hts hdeclares (by decide)
    (show "root" ∈ [nestedRule].map (·.name) by decide)
  obtain ⟨g', hg'⟩ := parse_text_of_parse hg
  exact ⟨g, g', hg, hg'⟩

end Grammar

end ConstrainedDecoding
