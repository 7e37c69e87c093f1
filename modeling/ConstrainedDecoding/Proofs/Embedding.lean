import ConstrainedDecoding.Proofs.Copies

/-!
# Embedded grammars

A grammar that is embedded in a draft stands there with its numbers moved up and its names made new.
Whatever the draft becomes and whatever stands around it, its rules describe what they describe in
the grammar alone.
-/
namespace ConstrainedDecoding

/-! ## Moved numbers -/

/-- A tree with the numbers of its rules moved up. -/
def Tree.moved (rules : Nat) (t : Tree) : Tree :=
  t.subst (fun r => .leaf (.reference (r + rules))) (· + rules)

/-- A moved tree describes what the tree does if each rule is read as the moved one. -/
theorem Tree.language_moved (rules : Nat) (t : Tree) (L : Reading) :
    (t.moved rules).language L = t.language fun r => L (r + rules) :=
  Tree.language_subst (fun r => by simp [Leaf.language]) t fun _ _ => rfl

theorem Tree.substAll_eq_map (reference : RuleId → Tree) (rename : RuleId → RuleId) (ts : List Tree) :
    Tree.substAll reference rename ts = ts.map (Tree.subst reference rename) := by
  induction ts with
  | nil => simp [Tree.substAll]
  | cons t ts ih => simp [Tree.substAll, ih]

/-- A node with its numbers moved up. -/
def Expr.moved (rules exprs : Nat) : Expr → Expr
  | .leaf l => .leaf (l.mapRule (· + rules))
  | .sequence items => .sequence (items.map (· + exprs))
  | .choice items => .choice (items.map (· + exprs))

theorem Expr.children_moved (rules exprs : Nat) (e : Expr) :
    (e.moved rules exprs).children = e.children.map (· + exprs) := by
  cases e <;> rfl

theorem Expr.Fits.moved {n rules exprs : Nat} {e : Expr} (h : e.Fits n) :
    (e.moved rules exprs).Fits (n + rules) := by
  cases e with
  | leaf l =>
    cases l with
    | reference r =>
      have hr : r < n := h.1 r rfl
      refine ⟨?_, rfl⟩
      rintro _ ⟨⟩
      exact Nat.add_lt_add_right hr rules
    | repetition r least most =>
      have hr : r < n := h.1 r rfl
      refine ⟨?_, ?_⟩
      · rintro _ ⟨⟩
        exact Nat.add_lt_add_right hr rules
      cases most with
      | none => rfl
      | some most => exact h.2
    | _ => exact ⟨by simp [Expr.moved, Leaf.mapRule, Expr.rule?, Leaf.rule?], rfl⟩
  | sequence items => exact ⟨by simp [Expr.moved, Expr.rule?], rfl⟩
  | choice items => exact ⟨by simp [Expr.moved, Expr.rule?], rfl⟩

/-- A moved node has the moved tree, if its parts have. -/
theorem Expr.toTree_moved {rules exprs : Nat} {f f' : ExprId → Tree} {e : Expr}
    (h : ∀ c ∈ e.children, f' (c + exprs) = (f c).moved rules) :
    (e.moved rules exprs).toTree f' = (e.toTree f).moved rules := by
  cases e with
  | leaf l =>
    cases l <;> rfl
  | sequence items =>
    simp only [Expr.moved, Expr.toTree, Tree.moved, Tree.subst, Tree.substAll_eq_map, List.map_map]
    exact congrArg Tree.sequence (List.map_congr_left h)
  | choice items =>
    simp only [Expr.moved, Expr.toTree, Tree.moved, Tree.subst, Tree.substAll_eq_map, List.map_map]
    exact congrArg Tree.choice (List.map_congr_left h)

/-- A rule under a new name, with the numbers of its nodes moved up. -/
def Rule.moved (exprs : Nat) (name : String) (r : Rule) : Rule :=
  ⟨name, r.body + exprs, r.lookahead.map fun l => ⟨l.expr + exprs, l.isExact⟩⟩

/-! ## Grammars in grammars -/

namespace Grammar

/-- The rules of a grammar `g` stand in another one from number `rules` on. -/
def Embeds (g' g : Grammar) (rules : Nat) : Prop :=
  ∀ (r : RuleId) (t : Tree), g.body r = some t → g'.body (r + rules) = some (t.moved rules)

/-- Embedded rules describe what they describe on their own. -/
theorem Embeds.reading_eq {g g' : Grammar} {rules : Nat} (h : g'.Embeds g rules) (hg : g.Valid)
    {r : RuleId} (hr : r < g.rules.size) : g'.reading (r + rules) = g.reading r := by
  let size := g.rules.size
  have le : g'.reading (r + rules) ≤ g.reading r := by
    -- nothing is said of the rules around the embedded ones
    let M : Reading := fun i => if rules ≤ i ∧ i - rules < size then g.reading (i - rules) else ⊤
    have inside {i : RuleId} (hi : i < size) : M (i + rules) = g.reading i := by
      simp [M, hi]
    have fits : g'.reading ≤ M := by
      refine reading_le fun i t ht => ?_
      by_cases hi : rules ≤ i ∧ i - rules < size
      · obtain ⟨i, rfl⟩ := Nat.exists_eq_add_of_le' hi.1
        rw [Nat.add_sub_cancel] at hi
        obtain ⟨u, hu⟩ := exists_body hi.2
        obtain rfl := Option.some.inj ((h i u hu).symm.trans ht)
        refine le_of_eq ?_
        calc
          (u.moved rules).language M = u.language fun s => M (s + rules) := u.language_moved rules M
          _ = u.language g.reading :=
            u.language_congr fun s hs => inside (hg.body_uses_lt hu hs)
          _ = g.reading i := (reading_of_body hu).symm
          _ = M (i + rules) := (inside hi.2).symm
      · simp [M, hi]
    exact (fits (r + rules)).trans_eq (inside hr)
  have ge : g.reading r ≤ g'.reading (r + rules) := by
    have fits : g.reading ≤ fun i => g'.reading (i + rules) := by
      refine reading_le fun i t ht => le_of_eq ?_
      rw [reading_of_body (h i t ht), Tree.language_moved]
    exact fits r
  exact le_antisymm le ge

end Grammar

namespace Draft

/-! ## Running an embedding -/

/-- A loop over an action that answers nothing. -/
private theorem forIn_eq_foldl {α : Type} {f : α → PUnit → StateM Draft (ForInStep PUnit)}
    {step : Draft → α → Draft} (h : ∀ a d, f a ⟨⟩ d = (.yield ⟨⟩, step d a)) (xs : List α) :
    ∀ d : Draft, forIn xs PUnit.unit f d = (⟨⟩, xs.foldl step d) := by
  induction xs with
  | nil => exact fun d => rfl
  | cons x xs ih =>
    intro d
    have run (k : ForInStep PUnit → StateM Draft PUnit) :
        (f x ⟨⟩ >>= k) d = k (.yield ⟨⟩) (step d x) := by
      change k (f x ⟨⟩ d).1 (f x ⟨⟩ d).2 = _
      rw [h]
    rw [List.forIn_cons, run]
    exact ih _

/-- The draft with one more rule, which goes by a new name. -/
private def withRule (exprs : Nat) (d : Draft) (rule : Rule) : Draft :=
  { d with
    rules := d.rules.push (rule.moved exprs (d.names.unused rule.name)).draft
    names := d.names.declare (d.names.unused rule.name) }

private theorem modify_push {α : Type} (xs : Array α) (x : α) (f : α → α) :
    (xs.push x).modify xs.size f = xs.push (f x) := by
  ext i h₁ h₂
  · simp
  · simp only [Array.getElem_modify, Array.getElem_push]
    grind

/-- The draft with one more node. -/
private def withExpr (rules exprs : Nat) (d : Draft) (e : Expr) : Draft :=
  { d with exprs := d.exprs.push (e.moved rules exprs) }

private theorem foldl_withExpr (rules exprs : Nat) (es : List Expr) : ∀ d : Draft,
    es.foldl (withExpr rules exprs) d =
      { d with exprs := d.exprs ++ (es.map (Expr.moved rules exprs)).toArray } := by
  induction es with
  | nil => simp
  | cons e es ih =>
    intro d
    rw [List.foldl_cons, ih]
    simp [withExpr]

/-- Embeds a rule. -/
private def embedRule (exprs : Nat) (rule : Rule) (_ : PUnit) : StateM Draft (ForInStep PUnit) := do
  let r ← addFreshRule rule.name
  giveBody r (rule.body + exprs)
  match rule.lookahead with
  | some l => setLookahead r ⟨l.expr + exprs, l.isExact⟩
  | none => pure ()
  return .yield ⟨⟩

private theorem embedRule_run (exprs : Nat) (rule : Rule) (d : Draft) :
    embedRule exprs rule ⟨⟩ d = (.yield ⟨⟩, withRule exprs d rule) := by
  obtain ⟨name, body, lookahead⟩ := rule
  have result (rules : Array DraftRule)
      (h : rules = (withRule exprs d ⟨name, body, lookahead⟩).rules) :
      ({ d with rules, names := d.names.declare (d.names.unused name) } : Draft) =
        withRule exprs d ⟨name, body, lookahead⟩ := by
    rw [h]
    rfl
  cases lookahead with
  | none => exact congrArg _ (result _ (modify_push _ _ _))
  | some l =>
    refine congrArg _ (result _ ?_)
    dsimp only
    rw [modify_push, modify_push]
    rfl

/-- Embeds a node. -/
private def embedExpr (rules exprs : Nat) (e : Expr) (_ : PUnit) :
    StateM Draft (ForInStep PUnit) := do
  let _ ← add (match e with
    | .leaf l => .leaf (l.mapRule (· + rules))
    | .sequence items => .sequence (items.map (· + exprs))
    | .choice items => .choice (items.map (· + exprs)))
  return .yield ⟨⟩

private theorem embedExpr_run (rules exprs : Nat) (e : Expr) (d : Draft) :
    embedExpr rules exprs e ⟨⟩ d = (.yield ⟨⟩, withExpr rules exprs d e) := by
  cases e <;> rfl

/-- An embedding moves up all numbers by what the draft holds. -/
private theorem embed_run (g : Grammar) (d : Draft) : embed g d =
    (g.root + d.rules.size, g.exprs.toList.foldl (withExpr d.rules.size d.exprs.size)
      (g.rules.toList.foldl (withRule d.exprs.size) d)) := by
  have rules := forIn_eq_foldl (embedRule_run d.exprs.size) g.rules.toList d
  have exprs := forIn_eq_foldl (embedExpr_run d.rules.size d.exprs.size) g.exprs.toList
      (g.rules.toList.foldl (withRule d.exprs.size) d)
  rw [Array.forIn_toList] at rules exprs
  calc
    embed g d = (g.root + d.rules.size, (forIn g.exprs PUnit.unit
      (embedExpr d.rules.size d.exprs.size)
        (forIn g.rules PUnit.unit (embedRule d.exprs.size) d).2).2) := rfl
    _ = _ := by rw [rules, exprs]

/-- Rules have been added to a draft under new names, with their nodes moved up. -/
private structure Copied (nodes : Nat) (rules : List Rule) (d d' : Draft) : Prop where
  exprs : d'.exprs = d.exprs
  size : d'.rules.size = d.rules.size + rules.length
  kept : ∀ r : Nat, r < d.rules.size → d'.rules[r]? = d.rules[r]?
  moved : ∀ (k : Nat) (rule : Rule), rules[k]? = some rule →
    ∃ name, d'.rules[d.rules.size + k]? = some (rule.moved nodes name).draft
  lists : d'.names.Lists d'.ruleNames
  nodup : d.ruleNames.Nodup → d'.ruleNames.Nodup

private theorem copied_foldl (exprs : Nat) (rules : List Rule) : ∀ d : Draft,
    d.names.Lists d.ruleNames → Copied exprs rules d (rules.foldl (withRule exprs) d) := by
  induction rules with
  | nil => exact fun d hd => ⟨rfl, rfl, fun _ _ => rfl, by simp, hd, id⟩
  | cons rule rules ih =>
    intro d hd
    let name := d.names.unused rule.name
    let d₁ := withRule exprs d rule
    have names : d₁.ruleNames = d.ruleNames ++ [name] := by
      simp [d₁, name, withRule, ruleNames, Rule.moved, Rule.draft]
    have size : d₁.rules.size = d.rules.size + 1 := by simp [d₁, withRule]
    have new : name ∉ d.ruleNames := hd.find?_eq_none.1 (d.names.find?_unused rule.name)
    have rest := ih d₁ (names ▸ hd.declare name)
    refine ⟨rest.exprs, ?_, fun r hr => ?_, fun k x hx => ?_, rest.lists, fun hnodup => ?_⟩
    · rw [List.foldl_cons, rest.size, size, List.length_cons]
      omega
    · rw [List.foldl_cons, rest.kept r (by omega)]
      simp [d₁, withRule, Array.getElem?_push, hr.ne]
    · cases k with
      | zero =>
        obtain rfl : rule = x := by simpa using hx
        refine ⟨name, ?_⟩
        rw [List.foldl_cons, rest.kept _ (by omega)]
        simp [d₁, name, withRule]
      | succ k =>
        obtain ⟨name', h⟩ := rest.moved k x (by simpa using hx)
        refine ⟨name', ?_⟩
        rw [← h, size, List.foldl_cons]
        congr 1
        omega
    · refine rest.nodup ?_
      rw [names]
      refine List.nodup_append.2 ⟨hnodup, by simp, ?_⟩
      simp only [List.mem_singleton, forall_eq]
      exact fun x hx heq => new (heq ▸ hx)

/-! ## Embedding in drafts -/

/-- Every node fits, and after `declared` rules there can be any other ones. -/
def Contract.free (declared : Nat) : Contract :=
  ⟨declared, True, fun _ _ => True, False⟩

theorem Contract.free_holds (declared : Nat) (g : Grammar) (lo hi : Nat) :
    (free declared).Holds g lo hi :=
  fun _ _ _ _ _ => ⟨trivial, False.elim⟩

/-- What an embedding leaves behind. -/
private structure Embedded (g : Grammar) (d d' : Draft) : Prop where
  exprs : d'.exprs = d.exprs ++ (g.exprs.toList.map (Expr.moved d.rules.size d.exprs.size)).toArray
  size : d'.rules.size = d.rules.size + g.rules.size
  kept : ∀ r : Nat, r < d.rules.size → d'.rules[r]? = d.rules[r]?
  moved : ∀ (k : Nat) (rule : Rule), g.rules[k]? = some rule →
    ∃ name, d'.rules[d.rules.size + k]? = some (rule.moved d.exprs.size name).draft
  lists : d'.names.Lists d'.ruleNames
  nodup : d.ruleNames.Nodup → d'.ruleNames.Nodup

private theorem embedded (g : Grammar) {d : Draft} (hd : d.names.Lists d.ruleNames) :
    (embed g d).1 = g.root + d.rules.size ∧ Embedded g d (embed g d).2 := by
  have copied := copied_foldl d.exprs.size g.rules.toList d hd
  rw [embed_run, foldl_withExpr]
  refine ⟨rfl, ?_, by simpa using copied.size, copied.kept, fun k rule hrule => ?_, copied.lists,
    copied.nodup⟩
  · rw [copied.exprs]
  · exact copied.moved k rule (by simpa using hrule)

variable {c : Contract} {known : Known} {g : Grammar} {d d' : Draft}

private theorem Embedded.getElem?_exprs (h : Embedded g d d') (i : Nat) :
    d'.exprs[i + d.exprs.size]? = g.exprs[i]?.map (Expr.moved d.rules.size d.exprs.size) := by
  rw [h.exprs, Array.getElem?_append_right (by omega), Nat.add_sub_cancel]
  simp

/-- A rule after the old ones is a moved one. -/
private theorem Embedded.exists_rule (h : Embedded g d d') {r : Nat} (hle : d.rules.size ≤ r)
    (hlt : r < d'.rules.size) : ∃ rule ∈ g.rules, ∃ name,
      d'.rules[r]? = some (rule.moved d.exprs.size name).draft := by
  have hk : r - d.rules.size < g.rules.size := by
    have := h.size
    omega
  obtain ⟨name, hname⟩ := h.moved (r - d.rules.size) g.rules[r - d.rules.size] (by simp [hk])
  rw [Nat.add_sub_cancel' hle] at hname
  exact ⟨_, Array.getElem_mem hk, name, hname⟩

/-- A rule is an old one or a moved one. -/
private theorem Embedded.mem_rules (h : Embedded g d d') {x : DraftRule} (hx : x ∈ d'.rules) :
    x ∈ d.rules ∨ ∃ rule ∈ g.rules, ∃ name, x = (rule.moved d.exprs.size name).draft := by
  obtain ⟨r, hr, rfl⟩ := Array.mem_iff_getElem.1 hx
  rcases Nat.lt_or_ge r d.rules.size with hlt | hle
  · have := h.kept r hlt
    rw [Array.getElem?_eq_getElem hr, Array.getElem?_eq_getElem hlt] at this
    exact Or.inl (Option.some.inj this ▸ Array.getElem_mem hlt)
  · obtain ⟨rule, hrule, name, heq⟩ := h.exists_rule hle hr
    rw [Array.getElem?_eq_getElem hr] at heq
    exact Or.inr ⟨rule, hrule, name, Option.some.inj heq⟩

private theorem Embedded.extends (h : Embedded g d d') : Extends c ∅ d d' := by
  have older (r : Nat) (hr : r < d.rules.size) := h.kept r hr
  refine ⟨?_, by have := h.size; omega, fun r hr => by rw [older r hr], by simp, ?_, ?_⟩
  · rw [h.exprs, Array.toList_append]
    exact List.prefix_append _ _
  · intro s _ hs
    cases s with
    | body r => exact congrArg _ (older r hs).symm
    | lookahead r => exact congrArg _ (older r hs).symm
  · rintro r (hr | ⟨hle, hlt⟩)
    · exact absurd hr (Set.notMem_empty _)
    · obtain ⟨rule, -, name, heq⟩ := h.exists_rule hle hlt
      exact ⟨rule.body + d.exprs.size, by rw [body?, heq]; rfl⟩

private theorem Embedded.orderly (h : Embedded g d d') (hg : g.Valid) (hd : d.Orderly c) :
    d'.Orderly c := by
  have size_le : d.exprs.size ≤ d'.exprs.size := by simp [h.exprs]
  have lt_size {i : Nat} (hi : i < g.exprs.size) : i + d.exprs.size < d'.exprs.size := by
    simp only [h.exprs, Array.size_append, List.size_toArray, List.length_map, Array.length_toList]
    omega
  have rules_size := h.size
  refine ⟨?_, fun i e he x hx => ?_, fun hc e he => ?_, fun x hx b hb => ?_, fun x hx l hl => ?_,
    h.lists, fun hnodup => h.nodup (hd.nodup ?_)⟩
  · have := hd.declared_le
    omega
  · rcases Nat.lt_or_ge i d.exprs.size with hlt | hle
    · rw [h.exprs, Array.getElem?_append_left hlt] at he
      exact hd.child_lt i e he x hx
    · obtain ⟨i, rfl⟩ := Nat.exists_eq_add_of_le' hle
      rw [h.getElem?_exprs] at he
      obtain ⟨e, hnode, rfl⟩ := Option.map_eq_some_iff.1 he
      obtain ⟨hi, rfl⟩ := Array.getElem?_eq_some_iff.1 hnode
      rw [Expr.children_moved] at hx
      obtain ⟨x, hchild, rfl⟩ := List.mem_map.1 hx
      exact Nat.add_lt_add_right (hg.child_lt i hi x hchild) _
  · rw [h.exprs, Array.mem_append] at he
    rcases he with he | he
    · exact (hd.fits hc e he).mono (by omega)
    · obtain ⟨e, hnode, rfl⟩ : ∃ e ∈ g.exprs, Expr.moved d.rules.size d.exprs.size e = _ := by
        simpa using he
      have fits : e.Fits g.rules.size :=
        ⟨hg.rule_lt e hnode, (Grammar.valid_iff.1 hg).2.2.2.2.1 e hnode⟩
      exact fits.moved.mono (by rw [h.size, Nat.add_comm])
  · rcases h.mem_rules hx with hx | ⟨rule, hrule, name, rfl⟩
    · exact (hd.body_lt x hx b hb).trans_le size_le
    · obtain rfl : rule.body + d.exprs.size = b := by simpa [Rule.moved, Rule.draft] using hb
      exact lt_size (hg.body_lt rule hrule)
  · rcases h.mem_rules hx with hx | ⟨rule, hrule, name, rfl⟩
    · exact (hd.lookahead_lt x hx l hl).trans_le size_le
    · obtain ⟨l', hl', rfl⟩ : ∃ l' ∈ rule.lookahead,
          (⟨l'.expr + d.exprs.size, l'.isExact⟩ : Lookahead) = l := by
        simpa [Rule.moved, Rule.draft] using hl
      exact lt_size (hg.lookahead_lt rule hrule l' hl')
  · have hle : c.declared ≤ d.ruleNames.length := by simpa [ruleNames] using hd.declared_le
    have names : d'.ruleNames.take d.ruleNames.length = d.ruleNames := by
      refine List.ext_getElem? fun r => ?_
      rw [List.getElem?_take]
      split
      · rename_i hr
        have hr : r < d.rules.size := by simpa [ruleNames] using hr
        simp only [ruleNames, List.getElem?_map, Array.getElem?_toList, h.kept r hr]
      · rename_i hr
        exact (List.getElem?_eq_none (Nat.le_of_not_lt hr)).symm
    rw [← names, List.take_take, Nat.min_eq_left hle]
    exact hnodup

/-- The nodes of an embedded grammar have the moved trees. -/
private theorem Embedded.tree_eq (h : Embedded g d d') (hg : g.Valid) {G : Grammar} (hG : G.Valid)
    (hstart : d'.exprs.toList <+: G.exprs.toList) (i : Nat) : i < g.exprs.size →
      G.tree (i + d.exprs.size) = (g.tree i).moved d.rules.size := by
  induction i using Nat.strong_induction_on with
  | _ i ih =>
    intro hi
    have here : d'.exprs[i + d.exprs.size]? =
        some (g.exprs[i].moved d.rules.size d.exprs.size) := by
      simp [h.getElem?_exprs, hi]
    have there : g.exprs[i]? = some g.exprs[i] := by simp [hi]
    rw [hG.tree_eq (node_of_initial hstart here), hg.tree_eq there]
    exact Expr.toTree_moved fun c hc =>
      ih c (hg.child_lt i hi c hc) ((hg.child_lt i hi c hc).trans hi)

/-- An embedded grammar stands in every grammar that the draft becomes. -/
theorem Adds.embed {n : Nat} (hg : g.Valid) :
    Adds (.free n) known (Draft.embed g) (fun r => [.rule r]) fun r G =>
      ∃ rules, n ≤ rules ∧ r = g.root + rules ∧ G.Embeds g rules := by
  intro d hd hk
  obtain ⟨answer, h⟩ := embedded g hd.lists
  refine ⟨h.extends, h.orderly hg hd, fun p hp => ?_,
    fun G _ _ _ => Contract.free_holds n G _ _,
    fun G hG hbecomes _ => ⟨d.rules.size, hd.declared_le, answer, fun r t ht => ?_⟩⟩
  · obtain rfl := List.mem_singleton.1 hp
    change (Draft.embed g d).1 < (Draft.embed g d).2.rules.size
    rw [answer, h.size, Nat.add_comm]
    exact Nat.add_lt_add_left hg.root_lt _
  · obtain ⟨rule, hrule, rfl⟩ := Option.map_eq_some_iff.1 ht
    obtain ⟨hr, rfl⟩ := Array.getElem?_eq_some_iff.1 hrule
    obtain ⟨name, hname⟩ := h.moved r _ hrule
    have taken := hbecomes.rules (d.rules.size + r) (by omega) (by rw [h.size]; omega)
    rw [hname] at taken
    obtain ⟨rule', hrule', heq⟩ := Option.map_eq_some_iff.1 taken.symm
    have body : rule'.body = g.rules[r].body + d.exprs.size :=
      Option.some.inj (congrArg DraftRule.body heq)
    rw [Nat.add_comm, Grammar.body, hrule', Option.map_some, body,
      h.tree_eq hg hG hbecomes.exprs _ (hg.body_lt _ (Array.getElem_mem hr))]

end Draft
end ConstrainedDecoding
