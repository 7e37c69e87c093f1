import ConstrainedDecoding.Proofs.Meaning

/-!
# What grammars of texts look like

A group with one alternative is spliced into the sequence around it, and an alternative that is only
a group into the choice around it, so the bodies of the grammar of a text are flat. Their leaves can
be written, and so can the names of all rules.
-/
namespace ConstrainedDecoding

open Ebnf (Role Spells Phrase)

/-! ## Flat trees -/

/-- A leaf that a text can have written. -/
def Leaf.Written : Leaf → Prop
  | .literal bytes => ∃ text ≠ "", bytes = Utf8.ofString text
  | .charClass set | .charClassStar set => ∀ r ∈ set.ranges, r.1 ≤ r.2
  | _ => True

namespace Tree

/-- A tree without groups that could be spliced, as an item of a sequence, a sequence among
alternatives, or a choice. -/
inductive Flat : Role → Tree → Prop
  | leaf {l} : l.Written → Flat .item (.leaf l)
  | group {ts} : 2 ≤ ts.length → Flat .choice (.choice ts) → Flat .item (.choice ts)
  | sequence {ts} : ts ≠ [] → (∀ us, ts ≠ [.choice us]) → (∀ t ∈ ts, Flat .item t) →
      Flat .sequence (.sequence ts)
  | choice {ts} : ts ≠ [] → (∀ t ∈ ts, Flat .sequence t) → Flat .choice (.choice ts)

/-- What a phrase is drawn as before it enters the sequence or choice around it. -/
def Shaped : Role → Tree → Prop
  | .element, t | .item, t => (∃ l : Leaf, t = .leaf l ∧ l.Written) ∨ t.Flat .choice
  | .sequence, t => ∃ ts, t = .sequence ts ∧ ts ≠ [] ∧ ∀ u ∈ ts, u.Flat .item
  | .choice, t => t.Flat .choice

theorem asElements_of_two_le {ts : List Tree} (h : 2 ≤ ts.length) :
    (Tree.choice ts).asElements = [.choice ts] := by
  match ts with
  | t :: u :: ts => simp [asElements]

theorem Shaped.asElements {t : Tree} (h : t.Shaped .item) :
    t.asElements ≠ [] ∧ ∀ u ∈ t.asElements, u.Flat .item := by
  obtain ⟨l, rfl, hl⟩ | h := h
  · simpa [Tree.asElements] using Flat.leaf hl
  · cases h with
    | @choice ts hts hall =>
      rcases ts with _ | ⟨t, _ | ⟨u, ts⟩⟩
      case nil => exact absurd rfl hts
      case cons.nil =>
        cases hall t List.mem_cons_self with
        | sequence hne _ hitems => exact ⟨hne, hitems⟩
      case cons.cons =>
        rw [asElements_of_two_le (by simp)]
        simpa using Flat.group (by simp) (.choice hts hall)

theorem Shaped.asAlternatives {t : Tree} (h : t.Shaped .sequence) :
    t.asAlternatives ≠ [] ∧ ∀ u ∈ t.asAlternatives, u.Flat .sequence := by
  obtain ⟨ts, rfl, hts, hall⟩ := h
  by_cases hlone : ∃ us, ts = [.choice us]
  · obtain ⟨us, rfl⟩ := hlone
    cases hall _ List.mem_cons_self with
    | group _ h =>
      cases h with
      | choice hne hus => exact ⟨hne, hus⟩
  · have own : (Tree.sequence ts).asAlternatives = [.sequence ts] := by
      unfold Tree.asAlternatives
      split
      · rename_i us heq
        exact absurd ⟨us, Tree.sequence.inj heq⟩ hlone
      · rfl
    rw [own]
    simpa using Flat.sequence hts (fun us heq => hlone ⟨us, heq⟩) hall

theorem Shaped.asBody {t : Tree} (h : t.Shaped .item) : t.asBody.Flat .choice := by
  obtain ⟨l, rfl, hl⟩ | h := h
  · refine .choice (by simp) ?_
    simpa using Flat.sequence (by simp) (by simp) (by simpa using Flat.leaf hl)
  · cases h with
    | choice hts hall => exact .choice hts hall

theorem Repeated.written {B : RuleId → Tree → Prop} {least : UInt32} {most : Option UInt32} {t u : Tree}
    (hu : u.Shaped .element) (h : u.Repeated B least most t) : ∃ l : Leaf, t = .leaf l ∧ l.Written := by
  have hoisted (h : ∃ r, B r u.asBody ∧ t = .leaf (.repetition r least most)) :
      ∃ l : Leaf, t = .leaf l ∧ l.Written := by
    obtain ⟨r, -, rfl⟩ := h
    exact ⟨_, rfl, trivial⟩
  unfold Repeated at h
  split at h
  · exact ⟨_, h, trivial⟩
  · split at h
    · obtain ⟨_, ⟨⟩, hl⟩ | hu := hu
      · exact ⟨_, h, hl⟩
      · cases hu
    · exact hoisted h
  · exact hoisted h

end Tree

namespace Ebnf

theorem Ranges.ordered {ms : List ClassMember} {ranges : List (UInt32 × UInt32)}
    (h : Ranges ms ranges) : ∀ r ∈ ranges, r.1 ≤ r.2 := by
  induction h with
  | nil => simp
  | range hle _ ih => exact List.forall_mem_cons.2 ⟨hle, ih⟩
  | single _ _ ih => exact List.forall_mem_cons.2 ⟨UInt32.le_refl _, ih⟩

/-- What is spelled is drawn in its shape. -/
theorem Spells.shaped {refers : String → RuleId → Prop} {role : Role} {ts : List Token} {p : Phrase}
    (h : Spells refers role ts p) : ∀ {B : RuleId → Tree → Prop} {t : Tree}, p.Drawn B t → t.Shaped role := by
  induction h with
  | unit | emptyLiteral | identifier =>
    intro B t ht
    simp only [Phrase.Drawn] at ht
    exact Or.inl ⟨_, ht, trivial⟩
  | literal htext =>
    intro B t ht
    simp only [Phrase.Drawn] at ht
    exact Or.inl ⟨_, ht, _, htext, rfl⟩
  | charClass hranges =>
    intro B t ht
    simp only [Phrase.Drawn] at ht
    exact Or.inl ⟨_, ht, hranges.ordered⟩
  | group _ ih => exact fun ht => Or.inr (ih ht)
  | plain _ ih => exact ih
  | quantified _ _ ih =>
    intro B t ht
    simp only [Phrase.Drawn] at ht
    obtain ⟨u, hu, ht⟩ := ht
    exact Or.inl (ht.written (ih hu))
  | last _ ih =>
    intro B t ht
    obtain ⟨u, ts, hu, hts, rfl⟩ := drawn_sequence_cons.1 ht
    obtain rfl := Tree.sequence.inj (drawn_sequence_nil.1 hts)
    obtain ⟨hne, hall⟩ := (ih hu).asElements
    exact ⟨_, rfl, by simpa using hne, by simpa using hall⟩
  | further _ _ ih ihs =>
    intro B t ht
    obtain ⟨u, ts, hu, hts, rfl⟩ := drawn_sequence_cons.1 ht
    obtain ⟨hne, hall⟩ := (ih hu).asElements
    obtain ⟨_, ⟨⟩, _, hrest⟩ := ihs hts
    exact ⟨_, rfl, by simp [hne], List.forall_mem_append.2 ⟨hall, hrest⟩⟩
  | only _ ih =>
    intro B t ht
    obtain ⟨u, ts, hu, hts, rfl⟩ := drawn_choice_cons.1 ht
    obtain rfl := Tree.choice.inj (drawn_choice_nil.1 hts)
    obtain ⟨hne, hall⟩ := (ih hu).asAlternatives
    exact .choice (by simpa using hne) (by simpa using hall)
  | bar _ _ ih ihs =>
    intro B t ht
    obtain ⟨u, ts, hu, hts, rfl⟩ := drawn_choice_cons.1 ht
    obtain ⟨hne, hall⟩ := (ih hu).asAlternatives
    cases ihs hts with
    | choice _ hrest => exact .choice (by simp [hne]) (List.forall_mem_append.2 ⟨hall, hrest⟩)

end Ebnf

/-! ## Grammars -/

/-- A rule that its line can be read as: its name can be read, and its trees are flat. -/
structure Rule.Printable (g : Grammar) (r : Rule) : Prop where
  named : Ebnf.IsName r.name
  body : (g.tree r.body).Flat .choice
  lookahead : ∀ l ∈ r.lookahead, l.isExact = false ∧ (g.tree l.expr).Flat .choice

/-- A grammar that its text can be read as. -/
structure Grammar.Printable (g : Grammar) : Prop where
  valid : g.Valid
  nodup : (g.rules.toList.map (·.name)).Nodup
  rules : ∀ r ∈ g.rules, r.Printable g

namespace Ebnf

variable {g : Grammar} {ds : List Declaration} {rule : Rule}

theorem printable_of_declared {refers : String → RuleId → Prop} {d : Declaration} {n : Nat} {k : RuleId}
    (hname : IsName d.name) (hspells : ∀ p ∈ d.phrases, ∃ us, Spells refers .choice us p)
    (h : g.HasRule (Stands g n) k d.name d.body (d.lookahead.map (·, false)))
    (hrule : g.rules[k]? = some rule) : rule.Printable g := by
  obtain ⟨rule', hrule', heq, hbody, hrel⟩ := h
  obtain rfl := Option.some.inj (hrule'.symm.trans hrule)
  refine ⟨heq ▸ hname, ?_, fun l hl => ?_⟩
  · obtain ⟨_, hspells⟩ := hspells d.body List.mem_cons_self
    exact hspells.shaped hbody
  · rw [Option.mem_def.1 hl] at hrel
    cases hnext : d.lookahead with
    | none =>
      rw [hnext] at hrel
      cases hrel
    | some p =>
      obtain ⟨_, hspells⟩ := hspells p (by simp [Declaration.phrases, hnext])
      rw [hnext] at hrel
      cases hrel with
      | some h => exact ⟨h.1, hspells.shaped h.2⟩

theorem printable_of_hoisted {refers : String → RuleId → Prop}
    (hnames : ∀ d ∈ ds, IsName d.name)
    (hspells : ∀ d ∈ ds, ∀ p ∈ d.phrases, ∃ us, Spells refers .choice us p)
    (h : Hoisted ds rule.name (g.tree rule.body)) (hl : rule.lookahead = none) :
    rule.Printable g := by
  obtain ⟨d, hd, hname, p, hp, q, least, most, B, u, hq, hu, -, heq⟩ := h
  obtain ⟨_, hspells⟩ := hspells d hd p hp
  obtain ⟨⟨_, hq⟩, -⟩ := hspells.parts _ hq
  exact ⟨isName_of_derived (hnames d hd) hname, heq ▸ (hq.shaped hu).asBody, by simp [hl]⟩

end Ebnf

namespace Grammar

/-- The grammar of a text can be read from its own text. -/
theorem printable_of_parse {text root : String} {g : Grammar} (h : parse text root = .ok g) :
    g.Printable ∧ (g.rules.toList.map (·.name))[g.root]? = some root := by
  obtain ⟨ds, hds, hfinish⟩ := parse_eq_ok.1 h
  obtain ⟨ts, hts⟩ := Ebnf.exists_tokens hds
  obtain ⟨⟨us, hus, hrules⟩, names, nodup, hroot⟩ := Ebnf.spells_of_parse hts
    (Ebnf.Scope.ofTitles _) (fun _ h => h) (Ebnf.resolved_ofTitles _ _) Ebnf.Scope.titles_ofTitles hds
  have named : ∀ d ∈ ds, Ebnf.IsName d.name := fun d hd => by
    have : d.name ∈ Ebnf.ruleNames (Ebnf.values ts) := names ▸ List.mem_map_of_mem hd
    exact Ebnf.named_tokens hts _ (Ebnf.mem_ruleNames.1 this) d.name rfl
  have spells : ∀ d ∈ ds, ∀ p ∈ d.phrases, ∃ us, Spells _ .choice us p :=
    fun d hd => (hrules.spelled d hd).2
  have inOrder : Ebnf.InOrder ds := Ebnf.inOrder_of_namesAt (fun d hd => by
    have := (hrules.spelled d hd).1
    rw [names] at this
    exact this (List.mem_map_of_mem hd)) nodup
  obtain ⟨completes, root_eq, stands⟩ := Ebnf.draft_spec inOrder hfinish
  refine ⟨⟨completes.valid, completes.nodup nodup, fun rule hrule => ?_⟩, ?_⟩
  · obtain ⟨k, hk, rfl⟩ := Array.mem_iff_getElem.1 hrule
    have hrule : g.rules[k]? = some g.rules[k] := by simp [hk]
    rcases Nat.lt_or_ge k ds.length with hlt | hge
    · have hd := List.getElem_mem hlt
      exact Ebnf.printable_of_declared (named _ hd) (spells _ hd) (stands k _ (by simp [hlt])) hrule
    · obtain ⟨hoisted, hl⟩ := completes.holds k _ (by simpa using hge) hk hrule
      exact Ebnf.printable_of_hoisted named spells hoisted (hl trivial)
  · obtain ⟨hlt, heq, -⟩ := List.findIdx?_eq_some_iff_getElem.1 (root_eq hroot)
    have hname : (ds.map (·.name))[g.root]? = some root :=
      List.getElem?_eq_some_iff.2 ⟨hlt, by simpa using heq⟩
    simpa using completes.name g.root root hname

end Grammar

end ConstrainedDecoding
