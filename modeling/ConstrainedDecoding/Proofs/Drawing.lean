import ConstrainedDecoding.Ebnf.Grammar
import ConstrainedDecoding.Proofs.Drafts
import ConstrainedDecoding.Proofs.Phrases

/-!
# Drawing phrases

`Phrase.Drawn` says which trees a phrase can be drawn as. A tree contributes its parts to the
sequence or choice around it, and an element that is repeated can become the body of a new rule.
-/
namespace ConstrainedDecoding

/-! ## Trees of phrases -/

namespace Tree

/-- The parts by which a tree enters the sequence around it. -/
def asElements : Tree → List Tree
  | .choice [.sequence items] => items
  | .choice [t] => [t]
  | t => [t]

/-- The alternatives by which a tree enters the choice around it. -/
def asAlternatives : Tree → List Tree
  | .sequence [.choice items] => items
  | t => [t]

/-- A tree as the body of a rule. -/
def asBody : Tree → Tree
  | .choice items => .choice items
  | t => .choice [.sequence [t]]

/-- Whether a tree becomes the body of a new rule when it is repeated. -/
def Hoists (least : UInt32) (most : Option UInt32) : Tree → Prop
  | .leaf (.reference _) => False
  | .leaf (.charClass _) => ¬ (least = 0 ∧ most = none)
  | _ => True

/-- What a tree can become when it is repeated, if `B` says what bodies new rules have. -/
def Repeated (B : RuleId → Tree → Prop) (least : UInt32) (most : Option UInt32) : Tree → Tree → Prop
  | .leaf (.reference r), t => t = .leaf (.repetition r least most)
  | .leaf (.charClass set), t =>
    if least = 0 ∧ most = none then t = .leaf (.charClassStar set)
    else ∃ r, B r (asBody (.leaf (.charClass set))) ∧ t = .leaf (.repetition r least most)
  | u, t => ∃ r, B r u.asBody ∧ t = .leaf (.repetition r least most)

end Tree

namespace Ebnf

mutual

/-- The trees that a phrase can be drawn as, if `B` says what bodies new rules have. -/
def Phrase.Drawn (B : RuleId → Tree → Prop) : Phrase → Tree → Prop
  | .empty, t => t = .leaf .empty
  | .literal text, t => t = .leaf (.literal (Utf8.ofString text))
  | .charClass set, t => t = .leaf (.charClass set)
  | .reference r, t => t = .leaf (.reference r)
  | .quantified body least most, t => ∃ u, body.Drawn B u ∧ u.Repeated B least most t
  | .sequence items, t => ∃ us, Phrase.AllDrawn B items us ∧ t = .sequence (us.flatMap Tree.asElements)
  | .choice items, t => ∃ us, Phrase.AllDrawn B items us ∧ t = .choice (us.flatMap Tree.asAlternatives)

/-- The trees that phrases can be drawn as, one by one. -/
def Phrase.AllDrawn (B : RuleId → Tree → Prop) : List Phrase → List Tree → Prop
  | [], us => us = []
  | p :: ps, us => ∃ u vs, p.Drawn B u ∧ Phrase.AllDrawn B ps vs ∧ us = u :: vs

end

section

variable {B : RuleId → Tree → Prop} {p : Phrase} {ps : List Phrase} {t : Tree}

theorem drawn_sequence_nil : (Phrase.sequence []).Drawn B t ↔ t = .sequence [] := by
  simp [Phrase.Drawn, Phrase.AllDrawn]

theorem drawn_sequence_cons : (Phrase.sequence (p :: ps)).Drawn B t ↔
    ∃ u ts, p.Drawn B u ∧ (Phrase.sequence ps).Drawn B (.sequence ts) ∧
      t = .sequence (u.asElements ++ ts) := by
  simp only [Phrase.Drawn, Phrase.AllDrawn]
  constructor
  · rintro ⟨_, ⟨u, us, hu, hus, rfl⟩, rfl⟩
    exact ⟨u, _, hu, ⟨us, hus, rfl⟩, rfl⟩
  · rintro ⟨u, _, hu, ⟨us, hus, ⟨⟩⟩, rfl⟩
    exact ⟨_, ⟨u, us, hu, hus, rfl⟩, rfl⟩

theorem drawn_choice_nil : (Phrase.choice []).Drawn B t ↔ t = .choice [] := by
  simp [Phrase.Drawn, Phrase.AllDrawn]

theorem drawn_choice_cons : (Phrase.choice (p :: ps)).Drawn B t ↔
    ∃ u ts, p.Drawn B u ∧ (Phrase.choice ps).Drawn B (.choice ts) ∧
      t = .choice (u.asAlternatives ++ ts) := by
  simp only [Phrase.Drawn, Phrase.AllDrawn]
  constructor
  · rintro ⟨_, ⟨u, us, hu, hus, rfl⟩, rfl⟩
    exact ⟨u, _, hu, ⟨us, hus, rfl⟩, rfl⟩
  · rintro ⟨u, _, hu, ⟨us, hus, ⟨⟩⟩, rfl⟩
    exact ⟨_, ⟨u, us, hu, hus, rfl⟩, rfl⟩

end

end Ebnf

/-- A new rule, one after the first `n`, has a body. -/
def Grammar.Makes (g : Grammar) (n : Nat) (r : RuleId) (t : Tree) : Prop := n ≤ r ∧ g.body r = some t

namespace Draft

variable {c : Contract} {known : Known} {e : ExprId}

/-- A node's parts stand in the draft, and its tree is made of theirs. -/
private theorem exists_node {d : Draft} (hd : d.Orderly c) (hlt : e < d.exprs.size) :
    ∃ n, d.node? e = some n ∧ (∀ x ∈ n.children, x < d.exprs.size) ∧
      ∀ g : Grammar, g.Valid → d.exprs.toList <+: g.exprs.toList → g.tree e = n.toTree g.tree := by
  have hn : d.node? e = some d.exprs[e] := by simp [node?, hlt]
  exact ⟨_, hn, fun x hx => (hd.child_lt e _ hn x hx).trans hlt,
    fun g hg hprefix => hg.tree_eq (node_of_initial hprefix hn)⟩

theorem adds_asElements (he : .node e ∈ known) :
    Adds c known (do return (← get).asElements e) (fun es => es.map .node)
      fun es g => es.map g.tree = (g.tree e).asElements := by
  refine Adds.read fun d hd hk => ⟨rfl, ?_⟩
  have hlt : e < d.exprs.size := hk _ he
  change (∀ p ∈ (d.asElements e).map Place.node, p.In d) ∧
    ∀ g : Grammar, g.Valid → _ → _ → (d.asElements e).map g.tree = (g.tree e).asElements
  obtain ⟨n, hn, child, tree⟩ := exists_node hd hlt
  cases n with
  | leaf l | sequence items =>
    refine ⟨by simpa [asElements, hn] using hlt, fun g hg hprefix _ => ?_⟩
    simp [asElements, hn, tree g hg hprefix, Expr.toTree, Tree.asElements]
  | choice items =>
    rcases items with _ | ⟨single, _ | ⟨second, more⟩⟩
    case nil | cons.cons =>
      refine ⟨by simpa [asElements, hn] using hlt, fun g hg hprefix _ => ?_⟩
      simp [asElements, hn, tree g hg hprefix, Expr.toTree, Tree.asElements]
    case cons.nil =>
      have hlt' : single < d.exprs.size := child single (by simp [Expr.children])
      obtain ⟨m, hm, child', tree'⟩ := exists_node hd hlt'
      cases m with
      | sequence items =>
        refine ⟨by simpa [asElements, hn, hm, Expr.children] using child', fun g hg hprefix _ => ?_⟩
        simp [asElements, hn, hm, tree g hg hprefix, tree' g hg hprefix, Expr.toTree, Tree.asElements]
      | leaf l | choice items =>
        refine ⟨by simpa [asElements, hn, hm] using hlt', fun g hg hprefix _ => ?_⟩
        simp [asElements, hn, hm, tree g hg hprefix, tree' g hg hprefix, Expr.toTree, Tree.asElements]

theorem adds_asAlternatives (he : .node e ∈ known) :
    Adds c known (do return (← get).asAlternatives e) (fun es => es.map .node)
      fun es g => es.map g.tree = (g.tree e).asAlternatives := by
  refine Adds.read fun d hd hk => ⟨rfl, ?_⟩
  have hlt : e < d.exprs.size := hk _ he
  change (∀ p ∈ (d.asAlternatives e).map Place.node, p.In d) ∧
    ∀ g : Grammar, g.Valid → _ → _ → (d.asAlternatives e).map g.tree = (g.tree e).asAlternatives
  obtain ⟨n, hn, child, tree⟩ := exists_node hd hlt
  cases n with
  | leaf l | choice items =>
    refine ⟨by simpa [asAlternatives, hn] using hlt, fun g hg hprefix _ => ?_⟩
    simp [asAlternatives, hn, tree g hg hprefix, Expr.toTree, Tree.asAlternatives]
  | sequence items =>
    rcases items with _ | ⟨single, _ | ⟨second, more⟩⟩
    case nil | cons.cons =>
      refine ⟨by simpa [asAlternatives, hn] using hlt, fun g hg hprefix _ => ?_⟩
      simp [asAlternatives, hn, tree g hg hprefix, Expr.toTree, Tree.asAlternatives]
    case cons.nil =>
      have hlt' : single < d.exprs.size := child single (by simp [Expr.children])
      obtain ⟨m, hm, child', tree'⟩ := exists_node hd hlt'
      cases m with
      | choice items =>
        refine ⟨by simpa [asAlternatives, hn, hm, Expr.children] using child', fun g hg hprefix _ => ?_⟩
        simp [asAlternatives, hn, hm, tree g hg hprefix, tree' g hg hprefix, Expr.toTree,
          Tree.asAlternatives]
      | leaf l | sequence items =>
        refine ⟨by simpa [asAlternatives, hn, hm] using hlt, fun g hg hprefix _ => ?_⟩
        simp [asAlternatives, hn, hm, tree g hg hprefix, tree' g hg hprefix, Expr.toTree,
          Tree.asAlternatives]

/-- A further rule with a node as its body. -/
private theorem adds_ruleOf {rule : String} {b : ExprId} (hb : .node b ∈ known)
    (hfurther : ∀ g, g.Valid → known.fact g → ∀ name, NameTable.Derived rule name →
      c.further name (g.tree b)) :
    Adds c known (do let r ← addFreshRule rule; giveBody r b; return r) (fun r => [.rule r])
      fun r g => g.Makes c.declared r (g.tree b) := by
  have body : Adds c known (pure b) (fun b => [.node b]) fun a _ => a = b :=
    Adds.pure (by simpa using hb) fun _ _ _ => rfl
  refine (Adds.rule rule body ?_).imp ?_
  · rintro _ g hg hfact rfl
    exact hfurther g hg hfact
  · rintro r g _ ⟨hle, _, rfl, hbody⟩
    exact ⟨hle, hbody⟩

/-- Gives a node a rule of its own, given what it is found as. -/
private def hoistAs (rule : String) (e : ExprId) : Option Expr → StateM Draft RuleId
  | some (.choice _) => do
    let r ← addFreshRule rule
    giveBody r e
    return r
  | _ => do
    let s ← add (.sequence [e])
    let b ← add (.choice [s])
    let r ← addFreshRule rule
    giveBody r b
    return r

theorem adds_hoist {rule : String} (he : .node e ∈ known)
    (hfurther : ∀ g, g.Valid → known.fact g → ∀ name, NameTable.Derived rule name →
      c.further name (g.tree e).asBody) :
    Adds c known (hoist rule e) (fun r => [.rule r])
      fun r g => g.Makes c.declared r (g.tree e).asBody := by
  suffices Adds c known ((do return (← get).node? e) >>= hoistAs rule e) (fun r => [.rule r])
      fun r g => g.Makes c.declared r (g.tree e).asBody from this
  refine (Adds.node? he).bind fun x => ?_
  have wrapped (hx : ∀ g : Grammar, (∃ n, x = some n ∧ g.tree e = n.toTree g.tree) →
      (g.tree e).asBody = .choice [.sequence [g.tree e]]) :
      Adds c (known.and (shown x) fun g => ∃ n, x = some n ∧ g.tree e = n.toTree g.tree)
        (hoistAs rule e none) (fun r => [.rule r])
        fun r g => (∃ n, x = some n ∧ g.tree e = n.toTree g.tree) →
          g.Makes c.declared r (g.tree e).asBody := by
    refine (Adds.sequence (by simp [he])).bind fun s => (Adds.choice (by simp)).bind fun b =>
      (adds_ruleOf (by simp) ?_).imp ?_
    · rintro g hg ⟨⟨⟨hfact, hnode⟩, hs⟩, hb⟩ name hname
      have := hfurther g hg hfact name hname
      simpa [hx g hnode, hb, hs] using this
    · rintro r g _ hr hb hs hnode
      simpa [hx g hnode, hb, hs] using hr
  rcases x with _ | (l | items | items)
  case some.choice =>
    refine (adds_ruleOf (by simp [he]) ?_).imp ?_
    · rintro g hg ⟨hfact, n, hn, htree⟩ name hname
      have := hfurther g hg hfact name hname
      obtain rfl := Option.some.inj hn
      simpa [htree, Expr.toTree, Tree.asBody] using this
    · rintro r g _ hr ⟨n, hn, htree⟩
      obtain rfl := Option.some.inj hn
      simpa [htree, Expr.toTree, Tree.asBody] using hr
  case some.leaf | some.sequence =>
    refine wrapped ?_
    rintro g ⟨n, hn, htree⟩
    obtain rfl := Option.some.inj hn
    simp [htree, Expr.toTree, Tree.asBody]
  case none =>
    refine wrapped ?_
    rintro g ⟨n, hn, -⟩
    simp at hn

/-- Repeats a node, given what it is found as. -/
private def repeatedAs (rule : String) (e : ExprId) (least : UInt32) (most : Option UInt32) :
    Option Expr → StateM Draft ExprId
  | some (.leaf (.reference r)) => addLeaf (.repetition r least most)
  | some (.leaf (.charClass set)) =>
    if least = 0 ∧ most = none then addLeaf (.charClassStar set)
    else do
      let r ← hoist rule e
      addLeaf (.repetition r least most)
  | _ => do
    let r ← hoist rule e
    addLeaf (.repetition r least most)

private theorem adds_repetition {least : UInt32} {most : Option UInt32} {r : RuleId}
    (hr : c.checked → ∀ n, (∀ p ∈ known, p.Fits n) → r < n)
    (hbounds : c.checked → ∀ m ∈ most, least ≤ m) :
    Adds c known (addLeaf (.repetition r least most)) (fun i => [.node i])
      fun i g => g.tree i = .leaf (.repetition r least most) := by
  refine Adds.add (by simp [Expr.children]) fun hc n _ hn => ⟨?_, ?_⟩
  · simpa [Expr.rule?, Leaf.rule?] using hr hc n hn
  · cases most with
    | none => rfl
    | some m => exact decide_eq_true (hbounds hc m rfl)

theorem adds_repeated {rule : String} {least : UInt32} {most : Option UInt32} (he : .node e ∈ known)
    (hbounds : c.checked → ∀ m ∈ most, least ≤ m)
    (hfurther : ∀ g, g.Valid → known.fact g → (g.tree e).Hoists least most →
      ∀ name, NameTable.Derived rule name → c.further name (g.tree e).asBody) :
    Adds c known (repeated rule e least most) (fun i => [.node i])
      fun i g => (g.tree e).Repeated (g.Makes c.declared) least most (g.tree i) := by
  suffices Adds c known ((do return (← get).node? e) >>= repeatedAs rule e least most)
      (fun i => [.node i])
      fun i g => (g.tree e).Repeated (g.Makes c.declared) least most (g.tree i) from this
  refine (Adds.node? he).bind fun x => ?_
  have hoisted (hx : ∀ g : Grammar, ∀ n, x = some n → (n.toTree g.tree).Hoists least most) :
      Adds c (known.and (shown x) fun g => ∃ n, x = some n ∧ g.tree e = n.toTree g.tree)
        (do let r ← hoist rule e; addLeaf (.repetition r least most)) (fun b => [.node b])
        fun i g => ∃ r, g.Makes c.declared r (g.tree e).asBody ∧
          g.tree i = .leaf (.repetition r least most) := by
    refine (adds_hoist (by simp [he]) ?_).bind fun r =>
      (adds_repetition (fun _ n hn => by simpa using hn (.rule r) (by simp)) hbounds).imp
        fun i g _ hi hr => ⟨r, hr, hi⟩
    rintro g hg ⟨hfact, n, hn, htree⟩
    exact hfurther g hg hfact (htree ▸ hx g n hn)
  rcases x with _ | ((_ | text | set | set | r | ⟨r, lo, hi⟩) | items | items)
  case some.leaf.reference =>
    refine (adds_repetition (fun _ n hn => ?_) hbounds).imp ?_
    · have := hn (.leaf (.reference r)) (by simp [shown])
      simpa [Expr.Fits, Expr.rule?, Leaf.rule?] using this.1
    · rintro i g - hi ⟨n, hn, htree⟩
      obtain rfl := Option.some.inj hn
      simpa [htree, Expr.toTree, Tree.Repeated] using hi
  case some.leaf.charClass =>
    rw [repeatedAs]
    split
    · rename_i hstar
      refine (Adds.addLeaf fun _ => ?_).imp ?_
      · simp [Leaf.Fits, Leaf.rule?]
      · rintro i g - hi ⟨n, hn, htree⟩
        obtain rfl := Option.some.inj hn
        simpa [htree, Expr.toTree, Tree.Repeated, hstar] using hi
    · rename_i hstar
      refine (hoisted ?_).imp ?_
      · rintro g n ⟨⟩
        exact hstar
      · rintro i g - hi ⟨n, hn, htree⟩
        obtain rfl := Option.some.inj hn
        simpa [htree, Expr.toTree, Tree.Repeated, hstar] using hi
  case none =>
    refine (hoisted ?_).imp ?_
    · rintro g n ⟨⟩
    · rintro i g - - ⟨n, hn, -⟩
      simp at hn
  all_goals
    refine (hoisted ?_).imp ?_
    · rintro g n ⟨⟩
      exact trivial
    · rintro i g - hi ⟨n, hn, htree⟩
      obtain rfl := Option.some.inj hn
      simpa [htree, Expr.toTree, Tree.Repeated] using hi

end Draft

/-! ## Phrases -/

namespace Ebnf

open Draft

variable {c : Contract} {known : Known}

/-- A phrase can be drawn within a rule: its references and bounds fit, if nodes have to, and the
rules that it makes are what the contract says of further rules. -/
structure Phrase.Drawable (c : Contract) (rule : String) (p : Phrase) : Prop where
  reference : c.checked → ∀ r, .reference r ∈ p.parts → r < c.declared
  bounds : c.checked → ∀ q least most, .quantified q least (some most) ∈ p.parts → least ≤ most
  further : ∀ q least most, .quantified q least most ∈ p.parts → ∀ B u, q.Drawn B u →
    u.Hoists least most → ∀ name, NameTable.Derived rule name → c.further name u.asBody

theorem Phrase.Drawable.part {rule : String} {p q : Phrase} (h : p.Drawable c rule)
    (hq : q.parts ⊆ p.parts) : q.Drawable c rule :=
  ⟨fun hc r hr => h.reference hc r (hq hr), fun hc q least most hm => h.bounds hc q least most (hq hm),
    fun q least most hm => h.further q least most (hq hm)⟩

private theorem drawElements_cons (rule : String) (p : Phrase) (ps : List Phrase) :
    drawElements rule (p :: ps) = do
      let e ← p.draw rule
      let elements ← (do return (← get).asElements e)
      return elements ++ (← drawElements rule ps) := by
  rw [drawElements]
  rfl

private theorem drawAlternatives_cons (rule : String) (p : Phrase) (ps : List Phrase) :
    drawAlternatives rule (p :: ps) = do
      let e ← p.draw rule
      let alternatives ← (do return (← get).asAlternatives e)
      return alternatives ++ (← drawAlternatives rule ps) := by
  rw [drawAlternatives]
  rfl

mutual

theorem adds_draw (rule : String) : ∀ (p : Phrase), p.Drawable c rule → ∀ known,
    Adds c known (p.draw rule) (fun e => [.node e])
      fun e g => p.Drawn (g.Makes c.declared) (g.tree e)
  | .empty, _, known => by
    unfold Phrase.draw
    refine (Adds.addLeaf fun _ => ?_).imp fun e g _ he => he
    simp [Leaf.Fits, Leaf.rule?]
  | .literal text, _, known => by
    unfold Phrase.draw
    refine (Adds.addLeaf fun _ => ?_).imp fun e g _ he => he
    simp [Leaf.Fits, Leaf.rule?]
  | .charClass set, _, known => by
    unfold Phrase.draw
    refine (Adds.addLeaf fun _ => ?_).imp fun e g _ he => he
    simp [Leaf.Fits, Leaf.rule?]
  | .reference r, hp, known => by
    unfold Phrase.draw
    refine (Adds.addLeaf fun hc => ?_).imp fun e g _ he => he
    simpa [Leaf.Fits, Leaf.rule?] using hp.reference hc r (by simp [Phrase.parts])
  | .quantified body least most, hp, known => by
    unfold Phrase.draw
    have part : (Phrase.quantified body least most) ∈ (Phrase.quantified body least most).parts := by
      simp [Phrase.parts]
    have hbody : body.Drawable c rule := hp.part (by simp [Phrase.parts])
    refine (adds_draw rule body hbody known).bind fun e =>
      (adds_repeated (by simp) ?_ ?_).imp fun i g _ hi he => ⟨_, he, hi⟩
    · rintro hc m hm
      obtain rfl : most = some m := hm
      exact hp.bounds hc body least m part
    · exact fun g _ hfact => hp.further body least most part _ _ hfact.2
  | .sequence items, hp, known => by
    unfold Phrase.draw
    refine (adds_drawElements rule items (fun q hq => hp.part fun x hx => ?_) known).bind fun es =>
      (Adds.sequence (by simp +contextual)).imp fun e g _ he ⟨us, hus, hes⟩ => ⟨us, hus, by rw [he, hes]⟩
    exact List.mem_cons_of_mem _ (Phrase.mem_partsOfAll.2 ⟨q, hq, hx⟩)
  | .choice items, hp, known => by
    unfold Phrase.draw
    refine (adds_drawAlternatives rule items (fun q hq => hp.part fun x hx => ?_) known).bind fun es =>
      (Adds.choice (by simp +contextual)).imp fun e g _ he ⟨us, hus, hes⟩ => ⟨us, hus, by rw [he, hes]⟩
    exact List.mem_cons_of_mem _ (Phrase.mem_partsOfAll.2 ⟨q, hq, hx⟩)

theorem adds_drawElements (rule : String) : ∀ (ps : List Phrase), (∀ p ∈ ps, p.Drawable c rule) →
    ∀ known, Adds c known (drawElements rule ps) (fun es => es.map .node)
      fun es g => ∃ us, Phrase.AllDrawn (g.Makes c.declared) ps us ∧
        es.map g.tree = us.flatMap Tree.asElements
  | [], _, known => by
    unfold drawElements
    exact Adds.pure (by simp) fun g _ _ => ⟨[], rfl, rfl⟩
  | p :: ps, hps, known => by
    rw [drawElements_cons]
    obtain ⟨hp, hps⟩ := List.forall_mem_cons.1 hps
    refine (adds_draw rule p hp known).bind fun e => (adds_asElements (by simp)).bind fun own =>
      (adds_drawElements rule ps hps _).bind fun rest =>
        Adds.pure (by simp only [List.map_append, List.mem_append, Known.mem_and]; tauto)
          fun g _ _ ⟨us, hus, hrest⟩ hown he => ⟨g.tree e :: us, ⟨_, _, he, hus, rfl⟩, ?_⟩
    simp [hown, hrest]

theorem adds_drawAlternatives (rule : String) : ∀ (ps : List Phrase), (∀ p ∈ ps, p.Drawable c rule) →
    ∀ known, Adds c known (drawAlternatives rule ps) (fun es => es.map .node)
      fun es g => ∃ us, Phrase.AllDrawn (g.Makes c.declared) ps us ∧
        es.map g.tree = us.flatMap Tree.asAlternatives
  | [], _, known => by
    unfold drawAlternatives
    exact Adds.pure (by simp) fun g _ _ => ⟨[], rfl, rfl⟩
  | p :: ps, hps, known => by
    rw [drawAlternatives_cons]
    obtain ⟨hp, hps⟩ := List.forall_mem_cons.1 hps
    refine (adds_draw rule p hp known).bind fun e => (adds_asAlternatives (by simp)).bind fun own =>
      (adds_drawAlternatives rule ps hps _).bind fun rest =>
        Adds.pure (by simp only [List.map_append, List.mem_append, Known.mem_and]; tauto)
          fun g _ _ ⟨us, hus, hrest⟩ hown he => ⟨g.tree e :: us, ⟨_, _, he, hus, rfl⟩, ?_⟩
    simp [hown, hrest]

end

/-! ## Declarations -/

/-- Declarations refer to each other alone, and have their bounds in order. -/
def Fit (ds : List Declaration) : Prop :=
  ∀ d ∈ ds, ∀ p ∈ d.phrases, (∀ r, .reference r ∈ p.parts → r < ds.length) ∧
    ∀ q least most, .quantified q least (some most) ∈ p.parts → least ≤ most

/-- The tree of a quantified part of a declaration that needs a rule, as the body of a rule named
after it. -/
def Hoisted (ds : List Declaration) (name : String) (t : Tree) : Prop :=
  ∃ d ∈ ds, NameTable.Derived d.name name ∧ ∃ p ∈ d.phrases, ∃ q least most B u,
    .quantified q least most ∈ p.parts ∧ q.Drawn B u ∧ u.Hoists least most ∧ t = u.asBody

/-- Nodes fit if the declarations do, and further rules are quantified parts. -/
def contract (ds : List Declaration) : Contract := ⟨ds.length, Fit ds, Hoisted ds, True⟩

theorem drawable {ds : List Declaration} {d : Declaration} (hd : d ∈ ds) {p : Phrase}
    (hp : p ∈ d.phrases) : p.Drawable (contract ds) d.name where
  reference hc r hr := (hc d hd p hp).1 r hr
  bounds hc q least most hq := (hc d hd p hp).2 q least most hq
  further q least most hq B u hu hoists _ hname :=
    ⟨d, hd, hname, p, hp, q, least, most, B, u, hq, hu, hoists, rfl⟩

/-- The tree is one that the phrase can be drawn as. -/
def Stands (g : Grammar) (n : Nat) (t : Tree) (p : Phrase) : Prop := p.Drawn (g.Makes n) t

theorem fills_draw {ds : List Declaration} {d : Declaration} (hd : d ∈ ds) {r : Nat}
    (hdr : d.rule = r) (hr : r < ds.length) :
    Fills (contract ds) (ruleSlots r d.lookahead.isSome) known d.draw (fun _ => [])
      fun _ g => Given (Stands g ds.length) g r d.body (d.lookahead.map (·, false)) := by
  subst hdr
  have hbody := drawable hd (p := d.body) List.mem_cons_self
  unfold Declaration.draw
  cases hl : d.lookahead with
  | none =>
    rw [Option.isSome_none, ruleSlots_false]
    refine (adds_draw d.name d.body hbody known).fill fun b => ?_
    exact (Fills.giveBody hr (by simp)).imp fun _ g _ hg hb => ⟨⟨b, hg, hb⟩, by simp⟩
  | some p =>
    rw [Option.isSome_some, ruleSlots_true]
    have hp := drawable hd (p := p) (by simp [Declaration.phrases, hl])
    refine (adds_draw d.name d.body hbody known).fill fun b =>
      Fills.bind (Fills.giveBody hr (by simp)) (fun _ => ?_) rfl (by simp)
    refine (adds_draw d.name p hp _).fill fun e => (Fills.setLookahead hr (by simp)).imp
      fun _ g _ hlook he hg hb => ⟨⟨b, hg, hb⟩, ?_⟩
    rintro x hx
    obtain rfl : (p, false) = x := by simpa using hx
    exact ⟨_, hlook, rfl, he⟩

/-- Runs an action for each of several declarations. -/
private def each (f : Declaration → StateM Draft Unit) (ds : List Declaration) : StateM Draft Unit :=
  forIn ds PUnit.unit fun d _ => f d >>= fun _ => pure (ForInStep.yield PUnit.unit)

private theorem each_cons (f : Declaration → StateM Draft Unit) (d : Declaration)
    (ds : List Declaration) : each f (d :: ds) = f d >>= fun _ => each f ds := by
  rw [each, List.forIn_cons]
  rfl

private theorem fills_drawAll {all : List Declaration} (ds : List Declaration) : ∀ {r : Nat} {known : Known},
    (∀ d ∈ ds, d ∈ all) → r + ds.length ≤ all.length →
    (∀ (k : Nat) (d : Declaration), ds[k]? = some d → d.rule = r + k) →
      Fills (contract all) (slotsFrom r (ds.map (·.lookahead.isSome))) known
        (each Declaration.draw ds) (fun _ => []) fun _ g => ∀ (k : Nat) (d : Declaration), ds[k]? = some d →
          Given (Stands g all.length) g (r + k) d.body (d.lookahead.map (·, false)) := by
  induction ds with
  | nil => exact fun _ _ _ => Adds.pure (by simp) fun g _ _ => by simp
  | cons d ds ih =>
    intro r known hmem hlen hrule
    simp only [List.length_cons] at hlen
    obtain ⟨hd, hds⟩ := List.forall_mem_cons.1 hmem
    have hrest : ∀ (k : Nat) (e : Declaration), ds[k]? = some e → e.rule = r + 1 + k :=
      fun k e he => (hrule (k + 1) e he).trans (Nat.add_right_comm r k 1)
    have hr : r < all.length := by omega
    have hlen : r + 1 + ds.length ≤ all.length := by omega
    rw [each_cons]
    refine Fills.bind (fills_draw hd (hrule 0 d rfl) hr) (fun _ =>
      (ih hds hlen hrest).imp fun _ g _ hothers hfirst k e he => ?_) rfl
      (disjoint_slotsFrom r _ _)
    cases k with
    | zero =>
      obtain rfl : d = e := by simpa using he
      exact hfirst
    | succ k =>
      rw [show r + (k + 1) = r + 1 + k by omega]
      exact hothers k e he

private theorem blank_declareAll (ds : List Declaration) : ∀ {names : List String} {d : Draft}, Blank names d →
    Blank (names ++ ds.map (·.name)) (each (fun d => addRule d.name >>= fun _ => pure ()) ds d).2 := by
  induction ds with
  | nil =>
    intro names d h
    rw [List.map_nil, List.append_nil]
    exact h
  | cons d ds ih =>
    intro names d' h
    have := ih (h.addRule d.name)
    rw [List.append_assoc] at this
    rw [each_cons]
    exact this

/-- Declarations stand in the order of their rules. -/
def InOrder (ds : List Declaration) : Prop :=
  ∀ (k : Nat) (d : Declaration), ds[k]? = some d → d.rule = k

section

variable {ds : List Declaration}

private theorem exists_draft (h : InOrder ds) : ∃ (d : Draft) (m : StateM Draft Unit),
    draft ds = (m d).2 ∧ Blank (ds.map (·.name)) d ∧
      Fills (contract ds) (slotsFrom 0 (ds.map (·.lookahead.isSome))) .nothing m (fun _ => [])
        fun _ g => ∀ (k : Nat) (d : Declaration), ds[k]? = some d →
          Given (Stands g ds.length) g k d.body (d.lookahead.map (·, false)) := by
  refine ⟨(each (fun d => addRule d.name >>= fun _ => pure ()) ds .empty).2, each Declaration.draw ds,
    rfl, blank_declareAll ds blank_empty, ?_⟩
  refine (fills_drawAll ds (fun d hd => hd) (by simp) fun k d hd => ?_).imp
    fun _ g _ hgiven k d hd => ?_
  · rw [h k d hd, Nat.zero_add]
  · rw [← Nat.zero_add k]
    exact hgiven k d hd

/-- What the grammar has that declarations are finished as. -/
theorem draft_spec (h : InOrder ds) {root : String} {g : Grammar}
    (hfinish : (draft ds).finishNamed root = .ok g) :
    Completes (contract ds) (slotsFrom 0 (ds.map (·.lookahead.isSome))) (ds.map (·.name)) g ∧
      (root ∈ ds.map (·.name) → (ds.map (·.name)).findIdx? (· == root) = some g.root) ∧
      ∀ (k : Nat) (d : Declaration), ds[k]? = some d →
        g.HasRule (Stands g ds.length) k d.name d.body (d.lookahead.map (·, false)) := by
  obtain ⟨d, m, hdraft, blank, fills⟩ := exists_draft h
  have size : (contract ds).declared = (ds.map (·.name)).length := by simp [contract]
  rw [hdraft, finishNamed] at hfinish
  split at hfinish
  · rename_i r hr
    obtain ⟨completes, hroot, hgiven⟩ := fills.of_finish blank size hfinish
    refine ⟨completes, fun hmem => ?_, fun k d hd => ?_⟩
    · rw [← fills.find?_eq blank size hmem, hr, hroot]
    · exact completes.hasRule (by simp [hd]) (by simp [hd]) (hgiven k d hd)
  · cases hfinish

/-- Declarations that fit are a grammar. -/
theorem exists_finishNamed (h : InOrder ds) (hfit : Fit ds) {root : String}
    (hroot : root ∈ ds.map (·.name)) : ∃ g, (draft ds).finishNamed root = .ok g := by
  obtain ⟨d, m, hdraft, blank, fills⟩ := exists_draft h
  have size : (contract ds).declared = (ds.map (·.name)).length := by simp [contract]
  obtain ⟨r, hr⟩ : ∃ r, (ds.map (·.name)).findIdx? (· == root) = some r := by
    rw [← Option.isSome_iff_exists, List.findIdx?_isSome]
    simpa using hroot
  obtain ⟨hlt, -⟩ := List.findIdx?_eq_some_iff_getElem.1 hr
  obtain ⟨g, hg⟩ := fills.finish blank size hfit
    (fun r hr => body_mem_slotsFrom (Nat.zero_le r) (by simpa using hr)) hlt
  exact ⟨g, by rw [hdraft, finishNamed, fills.find?_eq blank size hroot, hr]; exact hg⟩

end

end Ebnf

end ConstrainedDecoding
