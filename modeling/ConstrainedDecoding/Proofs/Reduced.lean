import ConstrainedDecoding.Proofs.Copies
import ConstrainedDecoding.Proofs.Reach

/-!
# Reduced grammars describe the same

Each step of the reduction copies a grammar or leaves it, and what it makes is a part of the grammar
that describes the same. The last step drops what the root does not reach, and a use in the grammar
is a use in the copy then, as no rule is put in place of another.
-/
namespace ConstrainedDecoding

/-- The root reaches a rule: it is the root, or a reached rule uses it. -/
inductive Grammar.Reaches (g : Grammar) : RuleId → Prop
  | root : g.Reaches g.root
  | use {r s : RuleId} {t : Tree} : g.Reaches r → g.Has r t → t.Uses s → g.Reaches s

namespace Reduced

/-! ## Unreachable rules -/

theorem mem_usesOfRules {g : Grammar} {r s : RuleId} :
    s ∈ (usesOfRules g).getD r [] ↔ ∃ t, g.Has r t ∧ t.Uses s := by
  simp only [usesOfRules, Array.getD_eq_getD_getElem?, Array.getElem?_map, Grammar.Has]
  cases hrule : g.rules[r]? with
  | none => simp
  | some rule =>
    simp only [Option.map_some, Option.getD_some, List.mem_append, Option.some.injEq,
      exists_eq_left', ← Tree.mem_uses]
    cases hl : rule.lookahead with
    | none => simp [Grammar.tree]
    | some l => simp [Grammar.tree, or_and_right, exists_or]

theorem reaches_of_mem_reachable {g : Grammar} {r : RuleId} (h : r ∈ reachable g) : g.Reaches r := by
  refine Reach.reach_induction (P := g.Reaches) ?_ (fun x hx y hy _ => ?_) r h
  · intro x hx _
    obtain rfl := List.mem_singleton.1 hx
    exact .root
  · obtain ⟨t, ht, hs⟩ := mem_usesOfRules.1 hy
    exact .use hx ht hs

theorem mem_reachable_of_uses {g : Grammar} (hg : g.Valid) {r s : RuleId} {t : Tree}
    (hr : r ∈ reachable g) (ht : g.Has r t) (hs : t.Uses s) : s ∈ reachable g :=
  Reach.mem_reach_of_step hr (mem_usesOfRules.2 ⟨t, ht, hs⟩) (ht.uses_lt hg hs)

namespace Plan

variable {p : Plan} {g g' : Grammar} {kept : RuleId → Bool}

theorem uses_copied (hp : ∀ r, p.inlined.getD r false = false) (depth : Nat) (inside : List RuleId)
    {t : Tree} {s : RuleId} (hs : t.Uses s) : (p.copied depth inside t).Uses (p.rename s) := by
  cases depth with
  | zero => exact Tree.uses_subst (fun r => by simp [Tree.Uses, Leaf.rule?]) t hs
  | succ depth => exact Tree.uses_subst (fun r => by simp [Tree.Uses, Leaf.rule?, hp r]) t hs

theorem Copied.has (h : p.Copied kept g g') {r : Nat} (hk : kept r = true) {t : Tree}
    (ht : g.Has r t) : g'.Has (p.rename r) (p.copied p.bodies.size [r] t) := by
  obtain ⟨rule, hrule, ht⟩ := ht
  obtain ⟨rule', hrule', -, hbody, hlookahead⟩ := h.rule r rule hk hrule
  refine ⟨rule', hrule', ?_⟩
  rcases ht with rfl | ⟨l, hl, rfl⟩
  · exact Or.inl hbody.symm
  · rw [Rule.follower, Option.mem_def.1 hl, Option.map_some] at hlookahead
    generalize rule'.lookahead = l' at hlookahead
    cases hlookahead with
    | some h => exact Or.inr ⟨_, rfl, h.2.symm⟩

/-- A copy without rules put in place of others reaches the copies of what the grammar does. -/
theorem Copied.reaches (h : p.Copied kept g g') (hp : ∀ r, p.inlined.getD r false = false)
    (hkept : ∀ r, g.Reaches r → kept r = true) {r : RuleId} (hr : g.Reaches r) :
    g'.Reaches (p.rename r) := by
  induction hr with
  | root =>
    rw [← h.root]
    exact .root
  | use hr ht hs ih => exact .use ih (h.has (hkept _ hr) ht) (uses_copied hp _ _ hs)

end Plan

theorem dropUnreachable_spec {g : Grammar} (hg : g.Valid) : ∃ g' origin,
    dropUnreachable g = .ok g' ∧ g'.Valid ∧ IsPart g' g origin ∧
    ∀ r : Nat, r < g'.rules.size → g'.Reaches r := by
  by_cases hlength : (reachable g).length = g.rules.size
  · exact ⟨g, id, if_pos hlength, hg, .refl g, fun r hr =>
      reaches_of_mem_reachable (Reach.mem_reach_of_length_eq hlength hr)⟩
  · have mem (r : RuleId) : (marksOf g.rules.size (reachable g)).getD r false = true ↔
        r ∈ reachable g := by
      rw [getD_marksOf, and_iff_left_iff_imp]
      exact Reach.lt_of_mem_reach
    have root : g.root ∈ reachable g := Reach.mem_reach_of_seed (by simp) hg.root_lt
    obtain ⟨g', p, hok, hinlined, -, copied⟩ :=
      copyGrammar_spec _ (Array.replicate g.rules.size false) hg ((mem _).2 root)
        fun r hr t ht s hs => (mem s).2 (mem_reachable_of_uses hg ((mem r).1 hr) ht hs)
    have none (r : RuleId) : p.inlined.getD r false = false := by
      by_cases hr : r < g.rules.size <;> simp [hinlined, Array.getD_eq_getD_getElem?, hr]
    obtain ⟨origin, isPart, horigin⟩ :=
      copied.exists_isPart (fun r s _ => none s) (fun r t _ s _ => none s) hg ((mem _).2 root)
    refine ⟨g', origin, (if_neg hlength).trans hok, copied.valid, isPart, fun r hr => ?_⟩
    obtain ⟨hk, hrename⟩ := horigin r hr
    rw [← hrename]
    have reached {r : RuleId} (hr : g.Reaches r) : r ∈ reachable g := by
      induction hr with
      | root => exact root
      | use _ ht hs ih => exact mem_reachable_of_uses hg ih ht hs
    exact copied.reaches none (fun r hr => (mem r).2 (reached hr))
      (reaches_of_mem_reachable ((mem _).1 hk))

/-! ## Rules that are used once -/

/-- One step of marking the rules that are repeated. -/
private def markRepeats (g : Grammar) (m : Array Bool) (rule : Rule) : Array Bool :=
  let m := markAll m (g.tree rule.body).repeats
  match rule.lookahead with
  | some l => markAll m (g.tree l.expr).repeats
  | none => m

private theorem size_markRepeats (g : Grammar) (m : Array Bool) (rule : Rule) :
    (markRepeats g m rule).size = m.size := by
  unfold markRepeats
  split <;> simp [size_markAll]

private theorem getD_markRepeats {g : Grammar} {m : Array Bool} {rule : Rule} {s : Nat}
    (h : m.getD s false = true ∨ s < m.size ∧ (s ∈ (g.tree rule.body).repeats ∨
      ∃ l ∈ rule.lookahead, s ∈ (g.tree l.expr).repeats)) :
    (markRepeats g m rule).getD s false = true := by
  unfold markRepeats
  cases hl : rule.lookahead with
  | none =>
    refine (getD_markAll _ _ _).2 (h.imp_right fun ⟨hlt, hs⟩ => ⟨?_, hlt⟩)
    simpa [hl] using hs
  | some l =>
    simp only [getD_markAll, size_markAll]
    rcases h with h | ⟨hlt, h | ⟨l', hl', h⟩⟩
    · exact Or.inl (Or.inl h)
    · exact Or.inl (Or.inr ⟨h, hlt⟩)
    · obtain rfl : l = l' := by simpa [hl] using hl'
      exact Or.inr ⟨h, hlt⟩

/-- Rules that a body or lookahead repeats are marked. -/
theorem getD_repeatedRules {g : Grammar} {r s : RuleId} {t : Tree} (h : g.Has r t)
    (hs : s ∈ t.repeats) (hlt : s < g.rules.size) : (repeatedRules g).getD s false = true := by
  obtain ⟨rule, hrule, ht⟩ := h
  have fold (rules : List Rule) (m : Array Bool) (hm : m.getD s false = true ∨
      s < m.size ∧ ∃ rule ∈ rules, s ∈ (g.tree rule.body).repeats ∨
        ∃ l ∈ rule.lookahead, s ∈ (g.tree l.expr).repeats) :
      (rules.foldl (markRepeats g) m).getD s false = true := by
    induction rules generalizing m with
    | nil => simpa using hm
    | cons rule rules ih =>
      refine ih _ ?_
      rcases hm with hm | ⟨hm, rule', hmem, hrep⟩
      · exact Or.inl (getD_markRepeats (Or.inl hm))
      · rcases List.mem_cons.1 hmem with rfl | hmem
        · exact Or.inl (getD_markRepeats (Or.inr ⟨hm, hrep⟩))
        · exact Or.inr ⟨by rwa [size_markRepeats], rule', hmem, hrep⟩
  have run : repeatedRules g =
      g.rules.toList.foldl (markRepeats g) (Array.replicate g.rules.size false) := by
    rw [Array.foldl_toList]
    rfl
  rw [run]
  refine fold _ _ (Or.inr ⟨by simpa using hlt, rule, ?_, ?_⟩)
  · exact Array.mem_toList_iff.2 (Array.mem_of_getElem? hrule)
  · rcases ht with rfl | ⟨l, hl, rfl⟩
    · exact Or.inl hs
    · exact Or.inr ⟨l, hl, hs⟩

theorem usedOnce_of_repeats {g : Grammar} {r s : RuleId} {t : Tree} (h : g.Has r t)
    (hs : s ∈ t.repeats) : (usedOnce g).getD s false = false := by
  by_cases hlt : s < g.rules.size
  · have := getD_repeatedRules h hs hlt
    simp [usedOnce, Array.getD_eq_getD_getElem?, hlt] at this ⊢
    simp [this]
  · simp [usedOnce, Array.getD_eq_getD_getElem?, hlt]

theorem inlineUsedOnce_spec {g : Grammar} (hg : g.Valid) : ∃ g' origin,
    inlineUsedOnce g = .ok g' ∧ g'.Valid ∧ IsPart g' g origin := by
  by_cases hany : (usedOnce g).contains true = true
  · obtain ⟨g', p, hok, hinlined, hbodies, copied⟩ :=
      copyGrammar_spec (fun _ => true) (usedOnce g) hg rfl fun _ _ _ _ _ _ => rfl
    have fit : p.Fit := by
      intro r s hs
      rw [hinlined]
      by_cases hr : r < g.rules.size
      · exact usedOnce_of_repeats (Grammar.has_of_body (copied.keeps.body r ⟨rfl, hr⟩)) hs
      · have : p.bodies.getD r default = .leaf .empty := by
          simp [hbodies, bodies, Array.getD_eq_getD_getElem?, hr]
          rfl
        simp [this, Tree.repeats] at hs
    obtain ⟨origin, isPart, -⟩ := copied.exists_isPart fit
      (fun r t ht s hs => hinlined ▸ usedOnce_of_repeats ht hs) hg rfl
    exact ⟨g', origin, (if_pos hany).trans hok, copied.valid, isPart⟩
  · exact ⟨g, id, if_neg hany, hg, .refl g⟩

end Reduced

namespace Grammar

open Reduced (IsPart)

theorem exists_reduced {g : Grammar} (hg : g.Valid) : ∃ g', ∃ origin, g.reduced = .ok g' ∧ g'.Valid ∧
    IsPart g' g origin ∧ ∀ r : Nat, r < g'.rules.size → g'.Reaches r := by
  obtain ⟨g₁, f₁, h₁, hg₁, part₁, -⟩ := Reduced.dropUnreachable_spec hg
  obtain ⟨g₂, f₂, h₂, hg₂, part₂⟩ := Reduced.inlineUsedOnce_spec hg₁
  obtain ⟨g₃, f₃, h₃, hg₃, part₃, reaches⟩ := Reduced.dropUnreachable_spec hg₂
  refine ⟨g₃, f₁ ∘ f₂ ∘ f₃, ?_, hg₃, part₁.trans (part₂.trans part₃), reaches⟩
  exact Except.bind_eq_ok.2 ⟨g₁, h₁, Except.bind_eq_ok.2 ⟨g₂, h₂, h₃⟩⟩

/-- A reduced grammar describes the same. -/
theorem reduced_spec {g g' : Grammar} (hg : g.Valid) (h : g.reduced = .ok g') :
    g'.Valid ∧ g'.language = g.language := by
  obtain ⟨g₁, origin, hok, hg₁, part, -⟩ := exists_reduced hg
  obtain rfl : g₁ = g' := Except.ok.inj (hok.symm.trans h)
  exact ⟨hg₁, by rw [language, part.reading _ hg₁.root_lt, part.root, language]⟩

end Grammar
end ConstrainedDecoding
