import ConstrainedDecoding.Proofs.Language
import Mathlib.Data.List.Induction

/-!
# Trees of the arena

The tree of a node is made of the trees of its parts, as these stand before it. So what holds of
every node of a valid grammar holds of the trees that rules have as their bodies.
-/
namespace ConstrainedDecoding

theorem Expr.toTree_congr {f f' : ExprId → Tree} (e : Expr) (h : ∀ c ∈ e.children, f c = f' c) :
    e.toTree f = e.toTree f' := by
  cases e with
  | leaf l => rfl
  | sequence items => exact congrArg Tree.sequence (List.map_congr_left h)
  | choice items => exact congrArg Tree.choice (List.map_congr_left h)

theorem Expr.uses_toTree {f : ExprId → Tree} {r : RuleId} (e : Expr) :
    (e.toTree f).Uses r ↔ e.rule? = some r ∨ ∃ c ∈ e.children, (f c).Uses r := by
  cases e <;> simp [Expr.toTree, Tree.Uses, Tree.usesSome_iff, Expr.rule?, Expr.children]

namespace Grammar

/-- The trees of the nodes of a list, each with its number as its place. -/
private def treesOf (es : List Expr) : Array Tree :=
  es.foldl (fun ts e => ts.push (e.toTree fun i => ts.getD i default)) #[]

private theorem treesOf_concat (es : List Expr) (e : Expr) :
    treesOf (es ++ [e]) =
      (treesOf es).push (e.toTree fun i => (treesOf es).getD i default) := by
  simp [treesOf]

private theorem size_treesOf (es : List Expr) : (treesOf es).size = es.length := by
  induction es using List.reverseRecOn with
  | nil => rfl
  | append_singleton es e ih => simp [treesOf_concat, ih]

private theorem treesOf_spec (es : List Expr) :
    ∀ (i : Nat) (e : Expr), es[i]? = some e → (∀ c ∈ e.children, c < i) →
      (treesOf es).getD i default = e.toTree fun c => (treesOf es).getD c default := by
  induction es using List.reverseRecOn with
  | nil => simp
  | append_singleton es x ih =>
    intro i e he hc
    have old : ∀ j < es.length,
        (treesOf (es ++ [x])).getD j default = (treesOf es).getD j default := by
      intro j hj
      have hj' : j ≠ es.length := by omega
      simp [treesOf_concat, Array.getD_eq_getD_getElem?, Array.getElem?_push, size_treesOf, hj']
    have parts : ∀ j ≤ es.length, (∀ c ∈ e.children, c < j) →
        e.toTree (fun c => (treesOf (es ++ [x])).getD c default) =
          e.toTree fun c => (treesOf es).getD c default := by
      intro j hj hc
      exact e.toTree_congr fun c h => old c (Nat.lt_of_lt_of_le (hc c h) hj)
    rcases Nat.lt_trichotomy i es.length with hi | rfl | hi
    · rw [List.getElem?_append_left hi] at he
      rw [old i hi, ih i e he hc, parts i hi.le hc]
    · obtain rfl : x = e := by simpa using he
      rw [parts _ le_rfl hc, treesOf_concat, Array.getD_eq_getD_getElem?, ← size_treesOf es,
        Array.getElem?_push_size, Option.getD_some]
    · simp [List.getElem?_eq_none (show (es ++ [x]).length ≤ i by simp; omega)] at he

private theorem trees_eq (g : Grammar) : g.trees = treesOf g.exprs.toList := by
  simp [trees, treesOf, Array.foldl_toList]

/-- Whether a bounded repetition has its bounds in order. -/
def boundsInOrder : Expr → Bool
  | .leaf (.repetition _ least (some most)) => least ≤ most
  | _ => true

private theorem bounds_le_iff {es : Array Expr} : (∀ e ∈ es, boundsInOrder e = true) ↔
    ∀ r least most, .leaf (.repetition r least (some most)) ∈ es → least ≤ most := by
  constructor
  · exact fun h r least most he => of_decide_eq_true (h _ he)
  · intro h e he
    unfold boundsInOrder
    split
    · exact decide_eq_true (h _ _ _ he)
    · rfl

theorem valid_iff {g : Grammar} : g.Valid ↔ g.root < g.rules.size ∧
    (∀ r ∈ g.rules, r.body < g.exprs.size) ∧
    (∀ r ∈ g.rules, ∀ l ∈ r.lookahead, l.expr < g.exprs.size) ∧
    (∀ e ∈ g.exprs, ∀ r ∈ e.rule?, r < g.rules.size) ∧
    (∀ e ∈ g.exprs, boundsInOrder e = true) ∧
    ∀ i (h : i < g.exprs.size), ∀ c ∈ g.exprs[i].children, c < i :=
  ⟨fun h => ⟨h.root_lt, h.body_lt, h.lookahead_lt, h.rule_lt, bounds_le_iff.2 h.bounds_le,
    h.child_lt⟩, fun ⟨root, body, lookahead, rule, bounds, child⟩ =>
      ⟨root, body, lookahead, rule, bounds_le_iff.1 bounds, child⟩⟩

instance (g : Grammar) : Decidable g.Valid := decidable_of_iff _ valid_iff.symm

/-- The tree of a node, by the trees of its parts. -/
theorem Valid.tree_eq {g : Grammar} (hg : g.Valid) {i : ExprId} {e : Expr}
    (h : g.exprs[i]? = some e) : g.tree i = e.toTree g.tree := by
  obtain ⟨hi, rfl⟩ := Array.getElem?_eq_some_iff.1 h
  have := treesOf_spec g.exprs.toList i g.exprs[i] (by simp [hi]) (hg.child_lt i hi)
  rw [← trees_eq] at this
  exact this

theorem tree_of_none {g : Grammar} {i : ExprId} (h : g.exprs[i]? = none) :
    g.tree i = .leaf .empty := by
  rw [tree, trees_eq, Array.getD_eq_getD_getElem?, Array.getElem?_eq_none, Option.getD_none]
  · rfl
  · simpa [size_treesOf] using h

theorem Valid.uses_lt {g : Grammar} (hg : g.Valid) {r : RuleId} (i : Nat) :
    (g.tree i).Uses r → r < g.rules.size := by
  induction i using Nat.strong_induction_on with
  | _ i ih =>
    intro h
    cases he : g.exprs[i]? with
    | none =>
      simp [tree_of_none he, Tree.Uses, Leaf.rule?] at h
    | some e =>
      obtain ⟨hi, rfl⟩ := Array.getElem?_eq_some_iff.1 he
      rw [hg.tree_eq he, Expr.uses_toTree] at h
      rcases h with h | ⟨c, hc, h⟩
      · exact hg.rule_lt _ (Array.getElem_mem hi) r h
      · exact ih c (hg.child_lt i hi c hc) h

/-- Nodes refer to rules of the grammar alone, and repeat them within bounds that are in order. -/
theorem Valid.fits {g : Grammar} (hg : g.Valid) (i : Nat) : (g.tree i).Fits g.rules.size := by
  induction i using Nat.strong_induction_on with
  | _ i ih =>
    cases he : g.exprs[i]? with
    | none =>
      rw [tree_of_none he]
      simp [Tree.Fits, Leaf.Fits, Leaf.rule?]
    | some e =>
      obtain ⟨hi, rfl⟩ := Array.getElem?_eq_some_iff.1 he
      have hc := hg.child_lt i hi
      have hmem := Array.getElem_mem hi
      rw [hg.tree_eq he]
      cases hx : g.exprs[i] with
      | leaf l =>
        rw [hx] at hmem
        refine ⟨fun r hr => hg.rule_lt _ hmem r hr, ?_⟩
        rintro r least most rfl
        exact hg.bounds_le r least most hmem
      | sequence items =>
        rw [hx] at hc
        simp only [Expr.toTree, Tree.Fits, Tree.allFit_iff, List.forall_mem_map]
        exact fun c h => ih c (hc c h)
      | choice items =>
        rw [hx] at hc
        simp only [Expr.toTree, Tree.Fits, Tree.allFit_iff, List.forall_mem_map]
        exact fun c h => ih c (hc c h)

/-- Rules refer to rules of the grammar alone. -/
theorem Valid.body_uses_lt {g : Grammar} (hg : g.Valid) {r s : RuleId} {t : Tree}
    (h : g.body r = some t) (hs : t.Uses s) : s < g.rules.size := by
  obtain ⟨rule, -, rfl⟩ := Option.map_eq_some_iff.1 h
  exact hg.uses_lt _ hs

theorem Valid.body_fits {g : Grammar} (hg : g.Valid) {r : RuleId} {t : Tree}
    (h : g.body r = some t) : t.Fits g.rules.size := by
  obtain ⟨rule, -, rfl⟩ := Option.map_eq_some_iff.1 h
  exact hg.fits _

theorem exists_body {g : Grammar} {r : RuleId} (h : r < g.rules.size) : ∃ t, g.body r = some t :=
  ⟨g.tree g.rules[r].body, by simp [body, h]⟩

theorem lt_of_body {g : Grammar} {r : RuleId} {t : Tree} (h : g.body r = some t) :
    r < g.rules.size := by
  obtain ⟨rule, hr, -⟩ := Option.map_eq_some_iff.1 h
  exact (Array.getElem?_eq_some_iff.1 hr).1

end Grammar

end ConstrainedDecoding
