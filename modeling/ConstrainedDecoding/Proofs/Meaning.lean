import ConstrainedDecoding.Proofs.Declarations
import ConstrainedDecoding.Proofs.Drawing

/-!
# Grammar texts mean what they say

A tree that a phrase is drawn as describes what the phrase does, wherever new rules are read as
their bodies say. So the declared rules of a text describe in its grammar what the text says.
-/
namespace ConstrainedDecoding

variable {L : Reading}

/-! ## Trees and phrases -/

namespace Tree

@[simp] theorem sequenceLanguage_asElements (t : Tree) :
    sequenceLanguage L t.asElements = t.language L := by
  unfold asElements
  split <;> simp

@[simp] theorem choiceLanguage_asAlternatives (t : Tree) :
    choiceLanguage L t.asAlternatives = t.language L := by
  unfold asAlternatives
  split <;> simp

@[simp] theorem language_asBody (t : Tree) : t.asBody.language L = t.language L := by
  unfold asBody
  split <;> simp

theorem Repeated.language_eq {g : Grammar} {n : Nat} (hL : g.AgreesFrom n L) {least : UInt32}
    {most : Option UInt32} {t u : Tree} (h : u.Repeated (g.Makes n) least most t) :
    t.language L = Language.copies (u.language L) least.toNat (most.map UInt32.toNat) := by
  have hoisted (h : ∃ r, g.Makes n r u.asBody ∧ t = .leaf (.repetition r least most)) :
      t.language L = Language.copies (u.language L) least.toNat (most.map UInt32.toNat) := by
    obtain ⟨r, ⟨hr, hbody⟩, rfl⟩ := h
    simp [Leaf.language, hL r hr, Grammar.bodyLanguage_some hbody]
  unfold Repeated at h
  split at h
  · subst h
    simp [Leaf.language]
  · split at h
    · rename_i hstar
      obtain ⟨rfl, rfl⟩ := hstar
      subst h
      exact Language.kstar_eq_copies _
    · exact hoisted h
  · exact hoisted h

end Tree

namespace Ebnf

mutual

theorem Phrase.Drawn.language_eq {g : Grammar} {n : Nat} (hL : g.AgreesFrom n L) :
    ∀ {p : Phrase} {t : Tree}, p.Drawn (g.Makes n) t → t.language L = p.language L
  | .empty, t, h | .literal _, t, h | .charClass _, t, h | .reference _, t, h => by
    simp only [Phrase.Drawn] at h
    simp [h, Phrase.language, Leaf.language]
  | .quantified body least most, t, h => by
    simp only [Phrase.Drawn] at h
    obtain ⟨u, hu, ht⟩ := h
    rw [Phrase.language, ht.language_eq hL, Phrase.Drawn.language_eq hL hu]
  | .sequence items, t, h => by
    simp only [Phrase.Drawn] at h
    obtain ⟨us, hus, rfl⟩ := h
    rw [Phrase.language, Tree.language_sequence, Phrase.AllDrawn.sequenceLanguage_eq hL hus]
  | .choice items, t, h => by
    simp only [Phrase.Drawn] at h
    obtain ⟨us, hus, rfl⟩ := h
    rw [Phrase.language, Tree.language_choice, Phrase.AllDrawn.choiceLanguage_eq hL hus]

theorem Phrase.AllDrawn.sequenceLanguage_eq {g : Grammar} {n : Nat} (hL : g.AgreesFrom n L) :
    ∀ {ps : List Phrase} {us : List Tree}, Phrase.AllDrawn (g.Makes n) ps us →
      Tree.sequenceLanguage L (us.flatMap Tree.asElements) = Phrase.sequenceLanguage L ps
  | [], us, h => by
    simp only [Phrase.AllDrawn] at h
    simp [h, Phrase.sequenceLanguage]
  | p :: ps, us, h => by
    simp only [Phrase.AllDrawn] at h
    obtain ⟨u, vs, hu, hvs, rfl⟩ := h
    simp [Phrase.sequenceLanguage, hu.language_eq hL, Phrase.AllDrawn.sequenceLanguage_eq hL hvs]

theorem Phrase.AllDrawn.choiceLanguage_eq {g : Grammar} {n : Nat} (hL : g.AgreesFrom n L) :
    ∀ {ps : List Phrase} {us : List Tree}, Phrase.AllDrawn (g.Makes n) ps us →
      Tree.choiceLanguage L (us.flatMap Tree.asAlternatives) = Phrase.choiceLanguage L ps
  | [], us, h => by
    simp only [Phrase.AllDrawn] at h
    simp [h, Phrase.choiceLanguage]
  | p :: ps, us, h => by
    simp only [Phrase.AllDrawn] at h
    obtain ⟨u, vs, hu, hvs, rfl⟩ := h
    simp only [List.flatMap_cons, Tree.choiceLanguage_append, Tree.choiceLanguage_asAlternatives,
      Phrase.choiceLanguage, hu.language_eq hL, Phrase.AllDrawn.choiceLanguage_eq hL hvs]

end

/-! ## Declared rules -/

/-- Declarations with distinct names stand in the order of their rules, if these have the names. -/
theorem inOrder_of_namesAt {ds : List Declaration}
    (h : ∀ d ∈ ds, NamesAt (ds.map (·.name)) d.name d.rule) (hnodup : (ds.map (·.name)).Nodup) :
    InOrder ds := by
  intro k d hd
  obtain ⟨hk, rfl⟩ := List.getElem?_eq_some_iff.1 hd
  obtain ⟨hr, heq⟩ := List.getElem?_eq_some_iff.1 (h _ (List.getElem_mem hk))
  have hk' : k < (ds.map (·.name)).length := by simpa using hk
  have same : (ds.map (·.name))[ds[k].rule] = (ds.map (·.name))[k] := by rw [heq, List.getElem_map]
  exact hnodup.getElem_inj_iff.1 same

/-- Declarations in which identifiers refer to declared rules alone fit. -/
theorem fit_of_spells {ts : List Token} {ds : List Declaration}
    (h : SpellsRules (NamesAt (ds.map (·.name))) ts ds) : Fit ds := by
  intro d hd p hp
  obtain ⟨us, hspells⟩ := (h.spelled d hd).2 p hp
  refine ⟨fun r hr => ?_, fun q least most hq => (hspells.parts _ hq).2 most rfl⟩
  obtain ⟨name, hname⟩ := hspells.parts _ hr
  simpa using (List.getElem?_eq_some_iff.1 hname).1

end Ebnf

namespace Grammar

/-- A rule is found by its name if names are distinct. -/
theorem findRule?_eq {g : Grammar} (hnodup : (g.rules.toList.map (·.name)).Nodup) {r : Nat}
    {rule : Rule} (hr : g.rules[r]? = some rule) : g.findRule? rule.name = some r := by
  obtain ⟨hlt, rfl⟩ := Array.getElem?_eq_some_iff.1 hr
  rw [findRule?, Array.findIdx?_eq_some_iff_getElem]
  refine ⟨hlt, by simp, fun j hj heq => ?_⟩
  have hlt' : r < (g.rules.toList.map (·.name)).length := by simpa using hlt
  have hlt'' : j < (g.rules.toList.map (·.name)).length := hj.trans hlt'
  have same : (g.rules.toList.map (·.name))[j] = (g.rules.toList.map (·.name))[r] := by simpa using heq
  have := hnodup.getElem_inj_iff.1 same
  omega

/-- In the grammar that declarations are finished as, the rules describe what the declarations do. -/
theorem reading_eq_of_declarations {g : Grammar} {ds : List Ebnf.Declaration}
    (hrefs : ∀ d ∈ ds, ∀ r, .reference r ∈ d.body.parts → r < ds.length)
    (h : ∀ (k : Nat) (d : Ebnf.Declaration), ds[k]? = some d →
      ∃ t, g.body k = some t ∧ d.body.Drawn (g.Makes ds.length) t) :
    ∀ r : Nat, r < ds.length → g.reading r = Ebnf.reading ds r := by
  refine reading_eq_lfp (n := ds.length) ⟨Ebnf.bodyLanguage ds, Ebnf.bodyLanguage_mono ds⟩ ?_ ?_
  · intro L M hLM r hr
    have hd : ds[r]? = some ds[r] := by simp [hr]
    simp only [OrderHom.coe_mk, Ebnf.bodyLanguage_some hd]
    exact ds[r].body.language_congr fun s hs => hLM s (hrefs _ (List.getElem_mem hr) s hs)
  · intro L hL r hr
    have hd : ds[r]? = some ds[r] := by simp [hr]
    obtain ⟨t, ht, hdrawn⟩ := h r _ hd
    simp only [OrderHom.coe_mk, Ebnf.bodyLanguage_some hd, bodyLanguage_some ht]
    exact hdrawn.language_eq hL

theorem parse_eq_ok {text root : String} {g : Grammar} : parse text root = .ok g ↔
    ∃ ds, Ebnf.parse text root = .ok ds ∧ (Ebnf.draft ds).finishNamed root = .ok g := by
  unfold parse
  cases Ebnf.parse text root with
  | error e => simp
  | ok ds =>
    simp only [Except.ok.injEq, exists_eq_left']
    generalize (Ebnf.draft ds).finishNamed root = outcome
    cases outcome <;> simp [Except.mapError]

/-- A text is accepted if its tokens spell declarations with distinct names, one of them the root. -/
theorem exists_parse {text root : String} {ts : List (Ebnf.Located Ebnf.Token)}
    {ds : List Ebnf.Declaration} (hts : Ebnf.tokens text = .ok ts)
    (h : Ebnf.Declares (Ebnf.values ts) ds) (hnodup : (ds.map (·.name)).Nodup)
    (hroot : root ∈ ds.map (·.name)) :
    ∃ g, parse text root = .ok g ∧ (Ebnf.draft ds).finishNamed root = .ok g := by
  have hds := Ebnf.parse_of_declares hts h hnodup hroot
  obtain ⟨us, -, hspells⟩ := h
  obtain ⟨g, hg⟩ := Ebnf.exists_finishNamed
    (Ebnf.inOrder_of_namesAt (fun d hd => (hspells.spelled d hd).1) hnodup)
    (Ebnf.fit_of_spells hspells) hroot
  exact ⟨g, parse_eq_ok.2 ⟨ds, hds, hg⟩, hg⟩

/-- If no undeclared name is used in a text that is accepted, its tokens spell declarations in just
one way, and each declared rule is found by its name and describes what its declaration says. -/
theorem parse_describes_declarations {text root : String} {g : Grammar}
    {ts : List (Ebnf.Located Ebnf.Token)} (h : parse text root = .ok g)
    (hts : Ebnf.tokens text = .ok ts) (hclosed : Ebnf.Closed ts) :
    ∃ ds, Ebnf.Declares (Ebnf.values ts) ds ∧
      (∀ ds', Ebnf.Declares (Ebnf.values ts) ds' → ds' = ds) ∧
      ∀ (r : RuleId) (d : Ebnf.Declaration), ds[r]? = some d →
        g.findRule? d.name = some r ∧ g.reading r = Ebnf.reading ds r := by
  obtain ⟨ds, hds, hfinish⟩ := parse_eq_ok.1 h
  obtain ⟨hdeclares, hnodup, -⟩ := (Ebnf.parse_eq_ok hts hclosed).1 hds
  have unique (ds' : List Ebnf.Declaration) (h' : Ebnf.Declares (Ebnf.values ts) ds') : ds' = ds :=
    h'.eq_of_parse hts hclosed hds
  obtain ⟨us, hus, hspells⟩ := hdeclares
  obtain ⟨completes, -, stands⟩ := Ebnf.draft_spec
    (Ebnf.inOrder_of_namesAt (fun d hd => (hspells.spelled d hd).1) hnodup) hfinish
  have fit := Ebnf.fit_of_spells hspells
  have reading := reading_eq_of_declarations (fun d hd => (fit d hd _ List.mem_cons_self).1)
    fun k d hd => by
      obtain ⟨rule, hrule, -, hdrawn, -⟩ := stands k d hd
      exact ⟨_, by rw [body, hrule]; rfl, hdrawn⟩
  refine ⟨ds, ⟨us, hus, hspells⟩, unique, fun r d hd => ⟨?_, ?_⟩⟩
  · obtain ⟨rule, hrule, hname, -⟩ := stands r d hd
    exact hname ▸ findRule?_eq (completes.nodup hnodup) hrule
  · exact reading r (List.getElem?_eq_some_iff.1 hd).1

/-- A rule named like the one that the quantifier before it asks for. -/
def clashingText : String := "root ::= \"a\"+ root_1\nroot_1 ::= \"b\" | root"

/-- The declarations of `clashingText`. -/
def clashingRules : List Ebnf.Declaration :=
  [⟨"root", 0, .choice [.sequence [.quantified (.literal "a") 1 none, .reference 1]], none⟩,
    ⟨"root_1", 1, .choice [.sequence [.literal "b"], .sequence [.reference 0]], none⟩]

theorem clashingText_describes : ∃ ts g, Ebnf.tokens clashingText = .ok ts ∧ Ebnf.Closed ts ∧
    parse clashingText "root" = .ok g ∧ g.findRule? "root_1" = some 1 ∧
      g.reading 1 = Ebnf.reading clashingRules 1 := by
  let ts : List (Ebnf.Located Ebnf.Token) :=
    [⟨⟨1, 1⟩, .ruleName "root"⟩, ⟨⟨1, 6⟩, .assign⟩, ⟨⟨1, 10⟩, .literal "a"⟩, ⟨⟨1, 13⟩, .plus⟩,
      ⟨⟨1, 15⟩, .identifier "root_1"⟩, ⟨⟨2, 1⟩, .ruleName "root_1"⟩, ⟨⟨2, 8⟩, .assign⟩,
      ⟨⟨2, 12⟩, .literal "b"⟩, ⟨⟨2, 16⟩, .pipe⟩, ⟨⟨2, 18⟩, .identifier "root"⟩, ⟨⟨2, 22⟩, .endOfFile⟩]
  have hts : Ebnf.tokens clashingText = .ok ts := by cbv
  have hclosed : Ebnf.Closed ts := by simp [Ebnf.Closed, ts]
  have hdeclares : Ebnf.Declares (Ebnf.values ts) clashingRules := by
    refine ⟨Ebnf.values ts.dropLast, rfl, ?_⟩
    show Ebnf.SpellsRules _
      ((Ebnf.Token.ruleName "root" :: Ebnf.Token.assign ::
          (([Ebnf.Token.literal "a"] ++ [Ebnf.Token.plus] ++ [Ebnf.Token.identifier "root_1"]) ++ [])) ++
        ((Ebnf.Token.ruleName "root_1" :: Ebnf.Token.assign ::
          (([Ebnf.Token.literal "b"] ++ Ebnf.Token.pipe :: [Ebnf.Token.identifier "root"]) ++ [])) ++ [])) _
    refine .cons (.rule rfl (.only (.further (.quantified (.literal (by decide)) .plus) (.last (.plain
      (.identifier rfl))))) .nothing) (.cons (.rule rfl (.bar (.last (.plain (.literal (by decide))))
        (.only (.last (.plain (.identifier rfl))))) .nothing) .nil)
  obtain ⟨g, hg, -⟩ := exists_parse hts hdeclares (by decide)
    (show "root" ∈ clashingRules.map (·.name) by decide)
  obtain ⟨ds, -, hunique, hrules⟩ := parse_describes_declarations hg hts hclosed
  obtain rfl := hunique _ hdeclares
  exact ⟨ts, g, hts, hclosed, hg, hrules 1 _ rfl⟩

/-- A text that declares one rule, and uses the name that the quantifier in it asks for. -/
def undeclaredText : String := "root ::= \"a\"* root_1"

/-- The rule of `undeclaredText`, as it is read. -/
def undeclaredRule : Ebnf.Declaration :=
  ⟨"root", 0, .choice [.sequence [.quantified (.literal "a") 0 none, .reference 1]], none⟩

/-- The grammar of `undeclaredText`. -/
def undeclaredGrammar : Grammar :=
  ⟨#[⟨"root", 6, none⟩, ⟨"root_1", 2, none⟩],
    #[.leaf (.literal [97]), .sequence [0], .choice [1], .leaf (.repetition 1 0 none),
      .leaf (.reference 1), .sequence [3, 4], .choice [5]], 0⟩

section

open Computability

variable {p q r s : Ebnf.Position}

private theorem find?_root : (NameTable.empty.declare "root").find? "root" = some 0 := by
  rw [(NameTable.lists_empty.declare "root").find]
  rfl

private theorem unused_root : (NameTable.empty.declare "root").unused "root" = "root_1" := by
  have hnext : (NameTable.empty.declare "root").find? "root_1" = none := by
    rw [(NameTable.lists_empty.declare "root").find]
    rfl
  have hsize : (NameTable.empty.declare "root").ids.size = 1 := by
    simp [NameTable.declare, NameTable.empty, Std.HashMap.size_insertIfNew]
  rw [NameTable.unused, find?_root, hsize]
  show (if ((NameTable.empty.declare "root").find? "root_1").isNone then "root_1" else _) = "root_1"
  rw [hnext]
  rfl

private theorem lists_hoisted :
    ((NameTable.empty.declare "root").declare "root_1").Lists ["root", "root_1"] :=
  (NameTable.lists_empty.declare "root").declare "root_1"

/-- The quantifier declares a rule, and the identifier after it finds this rule. -/
private theorem choice_undeclaredRule :
    Ebnf.choice "root" (NameTable.empty.declare "root")
        [⟨p, .literal "a"⟩, ⟨q, .star⟩, ⟨r, .identifier "root_1"⟩, ⟨s, .endOfFile⟩] =
      .ok ⟨undeclaredRule.body, (NameTable.empty.declare "root").declare "root_1", [⟨s, .endOfFile⟩], by simp⟩ := by
  have hfind : ((NameTable.empty.declare "root").declare "root_1").find? "root_1" = some 1 := by
    rw [lists_hoisted.find]
    rfl
  simp [Ebnf.choice, Ebnf.alternatives, Ebnf.sequence, Ebnf.quantified, Ebnf.element, Ebnf.quantify,
    Ebnf.endsSequence, Ebnf.next, Ebnf.Phrase.hoists, unused_root, hfind, undeclaredRule, Except.map]

private theorem finish_undeclaredRule :
    (Ebnf.draft [undeclaredRule]).finishNamed "root" = .ok undeclaredGrammar := by
  have hdraft : Ebnf.draft [undeclaredRule] = ⟨#[⟨"root", some 6, none⟩, ⟨"root_1", some 2, none⟩],
      undeclaredGrammar.exprs, (NameTable.empty.declare "root").declare "root_1"⟩ := by
    simp [Ebnf.draft, undeclaredRule, Ebnf.Declaration.draw, Ebnf.Phrase.draw, Ebnf.drawAlternatives,
      Ebnf.drawElements, Draft.addLeaf, Draft.add, Draft.repeated, Draft.hoist, Draft.giveBody, Draft.addRule,
      Draft.addFreshRule, Draft.empty, Draft.node?, Draft.asElements, Draft.asAlternatives, unused_root,
      bind, StateT.bind, pure, StateT.pure, get, getThe, MonadStateOf.get, StateT.get, modify, modifyGet,
      MonadStateOf.modifyGet, StateT.modifyGet, undeclaredGrammar]
    rfl
  rw [hdraft, Draft.finishNamed, lists_hoisted.find]
  rfl

private theorem language_undeclaredGrammar :
    undeclaredGrammar.language = ({[97]} : Language UInt8)∗ * {[97]} := by
  have hbody : undeclaredGrammar.body 0 = some (.choice
      [.sequence [.leaf (.repetition 1 0 none), .leaf (.reference 1)]]) := rfl
  have hhoisted : undeclaredGrammar.body 1 = some (.choice [.sequence [.leaf (.literal [97])]]) := rfl
  have hone : undeclaredGrammar.reading 1 = {[97]} := by simp [reading_of_body hhoisted, Leaf.language]
  rw [language, show undeclaredGrammar.root = 0 from rfl, reading_of_body hbody, Language.kstar_eq_copies]
  simp [hone, Leaf.language]

/-- An undeclared name that a quantifier has been given before is accepted, though the tokens of the text
then spell no declarations. -/
theorem undeclaredText_accepted : ∃ ts g, Ebnf.tokens undeclaredText = .ok ts ∧
    parse undeclaredText "root" = .ok g ∧ Utf8.ofString "a" ∈ g.language ∧
      ∀ ds, ¬ Ebnf.Declares (Ebnf.values ts) ds := by
  let ts : List (Ebnf.Located Ebnf.Token) :=
    [⟨⟨1, 1⟩, .ruleName "root"⟩, ⟨⟨1, 6⟩, .assign⟩, ⟨⟨1, 10⟩, .literal "a"⟩, ⟨⟨1, 13⟩, .star⟩,
      ⟨⟨1, 15⟩, .identifier "root_1"⟩, ⟨⟨1, 21⟩, .endOfFile⟩]
  have hts : Ebnf.tokens undeclaredText = .ok ts := by cbv
  have hdeclared : Ebnf.declareAll .empty ts = .ok (NameTable.empty.declare "root") := by
    simp [ts, Ebnf.declareAll, NameTable.empty, NameTable.find?]
  have hread : Ebnf.declarations (NameTable.empty.declare "root") ts = .ok [undeclaredRule] := by
    simp [Ebnf.declarations, Ebnf.declaration, Ebnf.lookahead, Ebnf.next, ts, choice_undeclaredRule,
      find?_root, Except.map]
    rfl
  have hparse : Ebnf.parse undeclaredText "root" = .ok [undeclaredRule] :=
    (Ebnf.parse_of_tokens hts).2 ⟨_, hdeclared, by rw [find?_root]; rfl, hread⟩
  refine ⟨ts, undeclaredGrammar, hts, parse_eq_ok.2 ⟨[undeclaredRule], hparse, finish_undeclaredRule⟩, ?_,
    fun ds h => ?_⟩
  · rw [language_undeclaredGrammar]
    exact ⟨[], Language.nil_mem_kstar _, [97], rfl, by decide⟩
  · have := h.closed "root_1" (by simp [ts, Ebnf.values])
    simp [ts, Ebnf.values] at this

end

end Grammar
end ConstrainedDecoding
