import ConstrainedDecoding.Grammar.Canonical
import ConstrainedDecoding.Proofs.Drafts

/-!
# Canonical grammars describe the same

The nodes that a tree is drawn as describe what the tree does, wherever the rules that were made for
choices inside sequences are read as their bodies say. New rules can always be read so, whatever the
given rules describe, and so the least reading of the given rules stays what it was.
-/
namespace ConstrainedDecoding

/-! ## Canonical trees -/

namespace Tree

def isLeaf : Tree → Bool
  | .leaf _ => true
  | _ => false

/-- A leaf or a sequence of leaves. -/
def isFlat : Tree → Bool
  | .leaf _ => true
  | .sequence ts => ts.all isLeaf
  | .choice _ => false

/-- A leaf, a sequence of leaves, or a choice among these. -/
def isCanonical : Tree → Bool
  | .choice ts => ts.all isFlat
  | t => t.isFlat

theorem isCanonical_of_isFlat {t : Tree} (h : t.isFlat = true) : t.isCanonical = true := by
  cases t with
  | choice ts => simp [isFlat] at h
  | _ => exact h

end Tree

/-- Trees describe the same wherever the rules from number `n` on are read as their bodies say. -/
def Grammar.Alike (g : Grammar) (n : Nat) (t u : Tree) : Prop :=
  ∀ L, g.AgreesFrom n L → t.language L = u.language L

namespace Canonical

open Draft (Contract Known Adds Fills)

/-- Nodes fit, and further rules are in canonical form. -/
def contract (n : Nat) : Contract := ⟨n, True, fun _ t => t.isCanonical = true, True⟩

variable {n : Nat} {known : Known}

/-! ## Trees with new rules -/

theorem adds_sequence {leaves : List ExprId} (hk : ∀ e ∈ leaves, .node e ∈ known) :
    Adds (contract n) known (addSequence leaves) (fun e => [.node e]) fun e g =>
      g.Alike n (g.tree e) (.sequence (leaves.map g.tree)) ∧
      ((∀ x ∈ leaves, (g.tree x).isLeaf = true) → (g.tree e).isFlat = true) := by
  unfold addSequence
  split
  · rename_i h
    obtain rfl := List.isEmpty_iff.1 h
    refine (Adds.addLeaf fun _ => ?_).imp fun e g _ he => ?_
    · simp [Leaf.Fits, Leaf.rule?]
    · exact ⟨fun L _ => by simp [he, Leaf.language], fun _ => by rw [he]; rfl⟩
  · exact (Adds.sequence hk).imp fun e g _ he =>
      ⟨fun L _ => by rw [he], fun h => by simpa [he, Tree.isFlat] using h⟩

theorem adds_alternativesOf {e : ExprId} (hk : .node e ∈ known) :
    Adds (contract n) known (alternativesOf e) (fun es => es.map .node) fun es g =>
      g.Alike n (.choice (es.map g.tree)) (g.tree e) ∧
      ((g.tree e).isCanonical = true → ∀ x ∈ es, (g.tree x).isFlat = true) := by
  refine Adds.read fun d hd hp => ?_
  have he : e < d.exprs.size := hp _ hk
  have hnode : d.exprs[e]? = some d.exprs[e] := by simp [he]
  have tree {g : Grammar} (hg : g.Valid) (hpre : d.exprs.toList <+: g.exprs.toList) :
      g.tree e = d.exprs[e].toTree g.tree := hg.tree_eq (Draft.node_of_initial hpre hnode)
  have hchild := hd.child_lt e _ hnode
  unfold alternativesOf
  rw [Draft.node?, hnode]
  cases hn : d.exprs[e] with
  | choice items =>
    rw [hn] at hchild tree
    refine ⟨rfl, ?_, fun g hg hpre _ => ?_⟩
    · simp only [List.forall_mem_map]
      exact fun x hx => (hchild x hx).trans he
    · rw [tree hg hpre]
      exact ⟨fun L _ => rfl, fun h => by simpa [Expr.toTree, Tree.isCanonical] using h⟩
  | leaf l =>
    rw [hn] at tree
    refine ⟨rfl, by simpa using he, fun g hg hpre _ => ⟨fun L _ => by simp, fun _ => ?_⟩⟩
    simp [tree hg hpre, Expr.toTree, Tree.isFlat]
  | sequence items =>
    rw [hn] at tree
    refine ⟨rfl, by simpa using he, fun g hg hpre _ => ⟨fun L _ => by simp, fun h => ?_⟩⟩
    simpa [tree hg hpre, Expr.toTree, Tree.isCanonical] using h

section

variable {t : Tree} {m : StateM Draft (List ExprId)}

/-- Leaves are drawn as an alternative. -/
private theorem adds_ofLeaves (h : Adds (contract n) known m (fun es => es.map .node) fun es g =>
      g.Alike n (.sequence (es.map g.tree)) t ∧ ∀ e ∈ es, (g.tree e).isLeaf = true) :
    Adds (contract n) known (do addSequence (← m)) (fun e => [.node e]) fun e g =>
      g.Alike n (g.tree e) t ∧ (g.tree e).isCanonical = true :=
  h.bind fun leaves => (adds_sequence fun e he => by simp [he]).imp
    fun e g _ ⟨alike, flat⟩ ⟨halike, hleaf⟩ =>
      ⟨fun L hL => (alike L hL).trans (halike L hL), Tree.isCanonical_of_isFlat (flat hleaf)⟩

/-- Alternatives are drawn as a choice. -/
private theorem adds_ofAlternatives (h : Adds (contract n) known m (fun es => es.map .node) fun es g =>
      g.Alike n (.choice (es.map g.tree)) t ∧ ∀ e ∈ es, (g.tree e).isFlat = true) :
    Adds (contract n) known (do Draft.add (.choice (← m))) (fun e => [.node e]) fun e g =>
      g.Alike n (g.tree e) t ∧ (g.tree e).isCanonical = true :=
  h.bind fun items => (Adds.choice fun e he => by simp [he]).imp fun e g _ he ⟨halike, hflat⟩ => by
    rw [he]
    exact ⟨halike, by simpa [Tree.isCanonical] using hflat⟩

end

/-- A choice inside a sequence is drawn as a reference to a rule of its own. -/
private theorem adds_group {rule : String} {ts : List Tree}
    (h : ∀ known, Adds (contract n) known (alternatives rule ts) (fun es => es.map .node) fun es g =>
      g.Alike n (.choice (es.map g.tree)) (.choice ts) ∧
      ∀ e ∈ es, (g.tree e).isFlat = true) :
    Adds (contract n) known (do
      let r ← Draft.addFreshRule (rule ++ "_group")
      Draft.giveBody r (← Draft.add (.choice (← alternatives rule ts)))
      return [← Draft.addLeaf (.reference r)]) (fun es => es.map .node) fun es g =>
        g.Alike n (.sequence (es.map g.tree)) (.choice ts) ∧
        ∀ e ∈ es, (g.tree e).isLeaf = true := by
  have body : Adds (contract n) known (do Draft.add (.choice (← alternatives rule ts))) (fun e => [.node e])
      fun e g => g.Alike n (g.tree e) (.choice ts) ∧ (g.tree e).isCanonical = true :=
    adds_ofAlternatives (h known)
  have use (r : RuleId) {known : Known} (hr : .rule r ∈ known) :
      Adds (contract n) known (do return [← Draft.addLeaf (.reference r)]) (fun es => es.map .node)
      fun es g => es.map g.tree = [.leaf (.reference r)] := by
    refine Adds.bind (Adds.add (by simp [Expr.children]) fun _ n _ hlt => ?_)
      fun e => Adds.pure (by simp +contextual) fun g _ _ he => ?_
    · exact ⟨by simpa [Expr.rule?, Leaf.rule?] using hlt _ hr, rfl⟩
    · simp [he, Expr.toTree]
  refine (Adds.rule _ body fun b g _ _ hb name _ => hb.2).bind fun r => (use r (by simp)).imp ?_
  rintro es g - hes ⟨hle, b, ⟨halike, -⟩, hbody⟩
  refine ⟨fun L hL => ?_, ?_⟩
  · simp [hes, Leaf.language, hL r hle, Grammar.bodyLanguage_some hbody, halike L hL]
  · have leaves : ∀ t ∈ es.map g.tree, t.isLeaf = true := by simp [hes, Tree.isLeaf]
    simpa using leaves

mutual

theorem adds_alternative (rule : String) : ∀ (t : Tree), t.Fits n → ∀ known,
    Adds (contract n) known (addAlternative rule t) (fun e => [.node e]) fun e g =>
      g.Alike n (g.tree e) t ∧ (g.tree e).isCanonical = true
  | .leaf l, ht, known => by
    unfold addAlternative
    exact (Adds.addLeaf (c := contract n) fun _ => ht).imp fun e g _ he => by
      rw [he]
      exact ⟨fun _ _ => rfl, rfl⟩
  | .sequence [t], ht, known => by
    have ht : t.Fits n := ht.1
    unfold addAlternative
    split
    · exact (adds_alternative rule t ht known).imp fun e g _ h =>
        ⟨fun L hL => by simp [h.1 L hL], h.2⟩
    · exact (adds_ofLeaves (adds_elements rule t ht known)).imp fun e g _ h =>
        ⟨fun L hL => by simp [h.1 L hL], h.2⟩
  | .sequence [], ht, known => by
    unfold addAlternative
    exact adds_ofLeaves (adds_elementsOfAll rule [] ht known)
  | .sequence (t :: u :: ts), ht, known => by
    unfold addAlternative
    exact adds_ofLeaves (adds_elementsOfAll rule (t :: u :: ts) ht known)
  | .choice [t], ht, known => by
    have ht : t.Fits n := ht.1
    unfold addAlternative
    split
    · exact (adds_alternative rule t ht known).imp fun e g _ h =>
        ⟨fun L hL => by simp [h.1 L hL], h.2⟩
    · refine adds_ofAlternatives (m := addAlternative rule t >>= alternativesOf)
        ((adds_alternative rule t ht known).bind fun own =>
          (adds_alternativesOf (by simp)).imp fun es g _ ha he => ⟨fun L hL => ?_, ha.2 he.2⟩)
      simp [ha.1 L hL, he.1 L hL]
  | .choice [], ht, known => by
    unfold addAlternative
    exact adds_ofAlternatives (adds_alternatives rule [] ht known)
  | .choice (t :: u :: ts), ht, known => by
    unfold addAlternative
    exact adds_ofAlternatives (adds_alternatives rule (t :: u :: ts) ht known)

theorem adds_alternatives (rule : String) : ∀ ts : List Tree, Tree.AllFit n ts → ∀ known,
    Adds (contract n) known (alternatives rule ts) (fun es => es.map .node) fun es g =>
      g.Alike n (.choice (es.map g.tree)) (.choice ts) ∧
      ∀ e ∈ es, (g.tree e).isFlat = true
  | [], _, known => by
    unfold alternatives
    exact Adds.pure (by simp +contextual) fun g _ _ => ⟨fun L _ => rfl, by simp⟩
  | t :: ts, ht, known => by
    unfold alternatives
    refine (adds_alternative rule t ht.1 known).bind fun e =>
      (adds_alternativesOf (by simp)).bind fun own =>
        (adds_alternatives rule ts ht.2 _).bind fun rest =>
          Adds.pure (by simp only [List.map_append, List.mem_append, Known.mem_and]; tauto)
            fun g _ _ hr ho he => ⟨fun L hL => ?_, ?_⟩
    · have := hr.1 L hL
      have := ho.1 L hL
      have := he.1 L hL
      simp_all
    · exact List.forall_mem_append.2 ⟨ho.2 he.2, hr.2⟩

theorem adds_elements (rule : String) : ∀ t : Tree, t.Fits n → ∀ known,
    Adds (contract n) known (elements rule t) (fun es => es.map .node) fun es g =>
      g.Alike n (.sequence (es.map g.tree)) t ∧ ∀ e ∈ es, (g.tree e).isLeaf = true
  | .leaf l, ht, known => by
    by_cases hl : l = .empty
    · subst hl
      unfold elements
      exact Adds.pure (by simp +contextual) fun g _ _ => ⟨fun L _ => by simp [Leaf.language], by simp⟩
    · have : elements rule (.leaf l) = (do return [← Draft.addLeaf l]) := by
        cases l <;> first | exact absurd rfl hl | simp [elements]
      rw [this]
      exact (Adds.addLeaf (c := contract n) fun _ => ht).bind fun e => Adds.pure (by simp +contextual) fun g _ _ he =>
        ⟨fun L _ => by simp [he], by simp [he, Tree.isLeaf]⟩
  | .sequence items, ht, known => by
    unfold elements
    exact adds_elementsOfAll rule items ht known
  | .choice [t], ht, known => by
    unfold elements
    exact (adds_elements rule t ht.1 known).imp fun es g _ h =>
      ⟨fun L hL => by simp [← h.1 L hL], h.2⟩
  | .choice [], ht, known => by
    unfold elements
    exact adds_group (adds_alternatives rule [] ht)
  | .choice (t :: u :: ts), ht, known => by
    unfold elements
    exact adds_group (adds_alternatives rule (t :: u :: ts) ht)

theorem adds_elementsOfAll (rule : String) : ∀ ts : List Tree, Tree.AllFit n ts → ∀ known,
    Adds (contract n) known (elementsOfAll rule ts) (fun es => es.map .node) fun es g =>
      g.Alike n (.sequence (es.map g.tree)) (.sequence ts) ∧
      ∀ e ∈ es, (g.tree e).isLeaf = true
  | [], _, known => by
    unfold elementsOfAll
    exact Adds.pure (by simp +contextual) fun g _ _ => ⟨fun L _ => rfl, by simp⟩
  | t :: ts, ht, known => by
    unfold elementsOfAll
    refine (adds_elements rule t ht.1 known).bind fun own =>
      (adds_elementsOfAll rule ts ht.2 _).bind fun rest =>
        Adds.pure (by simp only [List.map_append, List.mem_append, Known.mem_and]; tauto)
          fun g _ _ hr ho => ⟨fun L hL => ?_, List.forall_mem_append.2 ⟨ho.2, hr.2⟩⟩
    have := hr.1 L hL
    have := ho.1 L hL
    simp_all

end

theorem adds_tree (rule : String) {t : Tree} (ht : t.Fits n) (known : Known) :
    Adds (contract n) known (addTree rule t) (fun e => [.node e]) fun e g =>
      g.Alike n (g.tree e) t ∧ (g.tree e).isCanonical = true := by
  cases t with
  | leaf l =>
    exact (Adds.addLeaf (c := contract n) fun _ => ht).imp fun e g _ he => by
      rw [he]
      exact ⟨fun _ _ => rfl, rfl⟩
  | sequence items =>
    exact (adds_elementsOfAll rule items ht known).bind fun leaves =>
      (adds_sequence fun e he => by simp [he]).imp fun e g _ hs he =>
        ⟨fun L hL => (hs.1 L hL).trans (he.1 L hL), Tree.isCanonical_of_isFlat (hs.2 he.2)⟩
  | choice items =>
    exact (adds_alternatives rule items ht known).bind fun items' =>
      (Adds.choice fun e he => by simp [he]).imp fun e g _ hc he => by
        rw [hc]
        exact ⟨he.1, by simpa [Tree.isCanonical] using he.2⟩

/-! ## Rules -/

theorem blank_declareAll {names : List String} (rules : List Rule) : ∀ {d : Draft},
    Draft.Blank names d →
      Draft.Blank (names ++ rules.map (·.name)) (declareAll rules d).2 := by
  induction rules generalizing names with
  | nil =>
    intro d h
    rw [List.map_nil, List.append_nil]
    exact h
  | cons rule rules ih =>
    intro d h
    have := ih (h.addRule rule.name)
    rwa [List.append_assoc] at this

/-- A canonical tree that describes what another one does. -/
def Stands (n : Nat) (g : Grammar) (t u : Tree) : Prop := g.Alike n t u ∧ t.isCanonical = true

theorem fills_fill {tree : ExprId → Tree} (htree : ∀ e, (tree e).Fits n) {r : Nat} (hr : r < n)
    (rule : Rule) :
    Fills (contract n) (Draft.ruleSlots r rule.lookahead.isSome) known (fill tree r rule)
      (fun _ => []) fun _ g =>
        Draft.Given (Stands n g) g r (tree rule.body) (rule.follower tree) := by
  unfold fill
  cases hl : rule.lookahead with
  | none =>
    rw [Option.isSome_none, Draft.ruleSlots_false]
    exact (adds_tree rule.name (htree rule.body) known).fill fun b =>
      (Fills.giveBody hr (by simp)).imp fun _ g _ hg hb =>
        ⟨⟨b, hg, hb⟩, by simp [Rule.follower, hl]⟩
  | some l =>
    refine (adds_tree rule.name (htree rule.body) known).fill fun b =>
      (adds_tree rule.name (htree l.expr) _).fill fun e =>
        Fills.bind (Fills.giveBody hr (by simp))
          (fun _ => (Fills.setLookahead hr (by simp)).imp fun _ g _ hlook hbody he hb => ?_)
          (Draft.ruleSlots_true r) (by simp)
    refine ⟨⟨b, hbody, hb⟩, fun x hx => ⟨_, hlook, ?_⟩⟩
    obtain rfl : (tree l.expr, l.isExact) = x := by simpa [Rule.follower, hl] using hx
    exact ⟨rfl, he⟩

theorem fills_fillAll {tree : ExprId → Tree} (htree : ∀ e, (tree e).Fits n) (rules : List Rule) :
    ∀ (r : Nat) (known : Known), r + rules.length ≤ n →
      Fills (contract n) (Draft.slotsFrom r (rules.map (·.lookahead.isSome))) known
        (fillAll tree r rules) (fun _ => []) fun _ g =>
          ∀ (k : Nat) (rule : Rule), rules[k]? = some rule →
            Draft.Given (Stands n g) g (r + k) (tree rule.body) (rule.follower tree) := by
  induction rules with
  | nil => exact fun _ _ _ => Adds.pure (by simp +contextual) fun g _ _ => by simp
  | cons rule rules ih =>
    intro r known hr
    simp only [List.length_cons] at hr
    refine Fills.bind (fills_fill htree (by omega) rule)
      (fun _ => (ih (r + 1) _ (by omega)).imp fun _ g _ hrest hfirst k rule' hk => ?_) rfl
      (Draft.disjoint_slotsFrom r _ _)
    cases k with
    | zero =>
      obtain rfl : rule = rule' := by simpa using hk
      exact hfirst
    | succ k =>
      rw [show r + (k + 1) = r + 1 + k by omega]
      exact hrest k rule' (by simpa using hk)

end Canonical

namespace Grammar

open Canonical (contract Stands)

/-- The canonical form exists, and in it the given rules stand for what they were. -/
theorem exists_canonical {g : Grammar} (hg : g.Valid) : ∃ g', g.canonical = .ok g' ∧
    g'.Valid ∧ g'.root = g.root ∧ g.rules.size ≤ g'.rules.size ∧
    (∀ (r : RuleId) (rule : Rule), g.rules[r]? = some rule →
      g'.HasRule (Stands g.rules.size g') r rule.name (g.tree rule.body) (rule.follower g.tree)) ∧
    (contract g.rules.size).Holds g' g.rules.size g'.rules.size := by
  have blank := Canonical.blank_declareAll g.rules.toList Draft.blank_empty
  have fills := Canonical.fills_fillAll hg.fits g.rules.toList 0 .nothing (by simp)
  have size : (contract g.rules.size).declared = (g.rules.toList.map (·.name)).length := by
    simp [contract]
  obtain ⟨g', hfinish⟩ := fills.finish blank size trivial
    (fun r hr => Draft.body_mem_slotsFrom (Nat.zero_le r) (by simpa using hr))
    (by simpa using hg.root_lt)
  obtain ⟨completes, hroot, hgiven⟩ := fills.of_finish blank size hfinish
  refine ⟨g', hfinish, completes.valid, hroot, by simpa using completes.size_le,
    fun r rule hr => ?_, by simpa using completes.holds⟩
  have given := hgiven r rule (by simpa using hr)
  rw [Nat.zero_add] at given
  exact completes.hasRule (by simp [hr]) (by simp [hr]) given

/-- The given rules describe in the canonical form what they did. -/
private theorem reading_eq_of_stands {g g' : Grammar} (hg : g.Valid)
    (h : ∀ (r : RuleId) (rule : Rule), g.rules[r]? = some rule →
      g'.HasRule (Stands g.rules.size g') r rule.name (g.tree rule.body) (rule.follower g.tree)) :
    ∀ r : Nat, r < g.rules.size → g'.reading r = g.reading r := by
  refine reading_eq_lfp (n := g.rules.size) ⟨g.bodyLanguage, g.bodyLanguage_mono⟩ ?_ ?_
  · intro L M hLM r hr
    obtain ⟨t, ht⟩ := exists_body hr
    simp only [OrderHom.coe_mk, bodyLanguage_some ht]
    exact t.language_congr fun s hs => hLM s (hg.body_uses_lt ht hs)
  · intro L hL r hr
    obtain ⟨rule', hrule', -, ⟨halike, -⟩, -⟩ := h r g.rules[r] (by simp [hr])
    rw [bodyLanguage_some (t := g'.tree rule'.body) (by simp [body, hrule']), halike L hL]
    exact (bodyLanguage_some (t := g.tree g.rules[r].body) (by simp [body, hr]) L).symm

/-- Every valid grammar has a canonical form. Its root is the same, the given rules keep their
names, what they describe and what has to follow them, and the body of every rule is a leaf, a
sequence of leaves, or a choice among these. -/
theorem canonical_describes_same {g : Grammar} (hg : g.Valid) : ∃ g', g.canonical = .ok g' ∧
    g'.Valid ∧ g'.root = g.root ∧ g.rules.size ≤ g'.rules.size ∧
    (∀ r : RuleId, r < g.rules.size → g'.ruleName r = g.ruleName r ∧
      g'.reading r = g.reading r ∧ g'.following r = g.following r) ∧
    ∀ (r : RuleId) (t : Tree), g'.body r = some t → t.isCanonical = true := by
  obtain ⟨g', hok, hg', hroot, hsize, stands, further⟩ := exists_canonical hg
  have reading := reading_eq_of_stands hg stands
  refine ⟨g', hok, hg', hroot, hsize, fun r hr => ⟨?_, reading r hr, ?_⟩, fun r t ht => ?_⟩
  · obtain ⟨rule', hrule', hname, -⟩ := stands r g.rules[r] (by simp [hr])
    simp [ruleName, hrule', hname, hr]
  · refine (stands r g.rules[r] (by simp [hr])).following_eq (by simp [hr]) fun l _ t ht => ?_
    calc
      t.language g'.reading = (g.tree l.expr).language g'.reading :=
        ht.1 _ (g'.agreesFrom_reading _)
      _ = (g.tree l.expr).language g.reading :=
        Tree.language_congr _ fun s hs => reading s (hg.uses_lt _ hs)
  · obtain ⟨rule', hrule', rfl⟩ := Option.map_eq_some_iff.1 ht
    rcases Nat.lt_or_ge r g.rules.size with hr | hr
    · obtain ⟨rule, hrule, -, ⟨-, hcanonical⟩, -⟩ := stands r g.rules[r] (by simp [hr])
      obtain rfl := Option.some.inj (hrule.symm.trans hrule')
      exact hcanonical
    · exact (further r rule' hr (lt_of_body ht) hrule').1

/-- A rule that starts with a choice between a byte and nothing, and goes on with itself. -/
def nestedChoice : Grammar :=
  ⟨#[⟨"root", 4, some ⟨2, true⟩⟩],
    #[.leaf (.literal [0x61]), .leaf .empty, .choice [0, 1], .leaf (.reference 0), .sequence [2, 3]], 0⟩

theorem nestedChoice_canonical : nestedChoice.Valid ∧ ∃ g', nestedChoice.canonical = .ok g' ∧
    g'.reading 0 = nestedChoice.reading 0 ∧ g'.following 0 = nestedChoice.following 0 ∧
    ∀ (r : RuleId) (t : Tree), g'.body r = some t → t.isCanonical = true := by
  have valid : nestedChoice.Valid := by decide
  obtain ⟨g', hok, -, -, -, rules, canonical⟩ := canonical_describes_same valid
  exact ⟨valid, g', hok, (rules 0 (by decide)).2.1, (rules 0 (by decide)).2.2, canonical⟩

/-- The rules of a grammar keep their numbers in its canonical form, and describe the same. -/
theorem canonical_spec {g g' : Grammar} (hg : g.Valid) (h : g.canonical = .ok g') :
    g'.Valid ∧ g'.root = g.root ∧ ∀ r : Nat, r < g.rules.size → g'.reading r = g.reading r := by
  obtain ⟨g₁, hok, hg₁, hroot, -, stands, -⟩ := exists_canonical hg
  obtain rfl : g₁ = g' := Except.ok.inj (hok.symm.trans h)
  exact ⟨hg₁, hroot, reading_eq_of_stands hg stands⟩

/-- A canonical form describes the same. -/
theorem language_canonical {g g' : Grammar} (hg : g.Valid) (h : g.canonical = .ok g') :
    g'.language = g.language := by
  obtain ⟨-, hroot, hr⟩ := canonical_spec hg h
  rw [language, hroot, hr _ hg.root_lt, language]

end Grammar
end ConstrainedDecoding
