import ConstrainedDecoding.Grammar.Draft
import ConstrainedDecoding.Proofs.Arena
import ConstrainedDecoding.Proofs.Folds
import ConstrainedDecoding.Proofs.Names
import Mathlib.Data.Set.Disjoint

/-!
# What drafts become

A draft only grows: nodes keep their numbers, and rules keep what they have been given. So what an
action adds can be told from the finished grammar. `Draft.Fills c T known m made Q` says that `m`,
started where `known` is so, keeps a draft orderly, fills in the slots `T` of declared rules and
nothing else, answers places `made`, and that `Q` holds of its answer in every grammar that takes
over what it added.
-/
namespace ConstrainedDecoding

/-- A rule of a grammar as a rule of a draft. -/
def Rule.draft (r : Rule) : DraftRule := ⟨r.name, some r.body, r.lookahead⟩

/-- What has to follow a rule, and whether exactly that. -/
def Rule.follower (tree : ExprId → Tree) (r : Rule) : Option (Tree × Bool) :=
  r.lookahead.map fun l => (tree l.expr, l.isExact)

@[simp] theorem Rule.isSome_follower (tree : ExprId → Tree) (r : Rule) :
    (r.follower tree).isSome = r.lookahead.isSome := Option.isSome_map

/-- A node refers to a rule below `rules` if to any, and has its bounds in order. -/
def Expr.Fits (rules : Nat) (e : Expr) : Prop :=
  (∀ r ∈ e.rule?, r < rules) ∧ Grammar.boundsInOrder e = true

theorem Expr.Fits.mono {m n : Nat} {e : Expr} (h : e.Fits m) (hmn : m ≤ n) : e.Fits n :=
  ⟨fun r hr => (h.1 r hr).trans_le hmn, h.2⟩

theorem Leaf.Fits.expr {n : Nat} {l : Leaf} (h : l.Fits n) : (Expr.leaf l).Fits n := by
  refine ⟨h.1, ?_⟩
  unfold Grammar.boundsInOrder
  split
  · exact decide_eq_true (h.2 _ _ _ (Expr.leaf.inj (by assumption)))
  · rfl

namespace Draft

/-! ## Finished drafts -/

private theorem finishRule_eq_ok {size : Nat} {r : DraftRule} {rule : Rule} :
    finishRule size r = .ok rule ↔
      r = rule.draft ∧ rule.body < size ∧ ∀ l ∈ rule.lookahead, l.expr < size := by
  obtain ⟨name, body, lookahead⟩ := r
  obtain ⟨name', body', lookahead'⟩ := rule
  cases body with
  | none => simp [finishRule, Rule.draft]
  | some b => cases lookahead <;> grind [finishRule, Rule.draft]

private theorem mapM_finishRule {size : Nat} {rs : List DraftRule} : ∀ {rules : List Rule},
    rs.mapM (finishRule size) = .ok rules ↔ rs = rules.map Rule.draft ∧
      ∀ rule ∈ rules, rule.body < size ∧ ∀ l ∈ rule.lookahead, l.expr < size := by
  induction rs with
  | nil =>
    intro rules
    simp only [List.mapM_nil, pure, Except.pure, Except.ok.injEq]
    constructor
    · rintro rfl
      simp
    · rintro ⟨h, -⟩
      simpa [eq_comm] using h
  | cons r rs ih =>
    intro rules
    simp only [List.mapM_cons, Except.bind_eq_ok, finishRule_eq_ok, ih, pure, Except.pure,
      Except.ok.injEq]
    constructor
    · rintro ⟨rule, ⟨rfl, hb, hl⟩, rules, ⟨rfl, hall⟩, rfl⟩
      exact ⟨rfl, List.forall_mem_cons.2 ⟨⟨hb, hl⟩, hall⟩⟩
    · rintro ⟨h, hall⟩
      cases rules with
      | nil => simp at h
      | cons rule rules =>
        obtain ⟨rfl, rfl⟩ := List.cons.inj h
        obtain ⟨first, rest⟩ := List.forall_mem_cons.1 hall
        exact ⟨rule, ⟨rfl, first⟩, rules, ⟨rfl, rest⟩, rfl⟩

private theorem checkExpr_eq_ok {rules : Nat} {i : ExprId} {e : Expr} :
    checkExpr rules i e = .ok () ↔ e.Fits rules ∧ ∀ c ∈ e.children, c < i := by
  have found (es : List ExprId) : es.find? (i ≤ ·) = none ↔ ∀ c ∈ es, c < i := by
    simp [List.find?_eq_none]
  cases e with
  | sequence es =>
    simp only [checkExpr, Expr.Fits, Expr.rule?, Grammar.boundsInOrder, Expr.children, ← found es]
    cases es.find? (i ≤ ·) <;> simp
  | choice es =>
    simp only [checkExpr, Expr.Fits, Expr.rule?, Grammar.boundsInOrder, Expr.children, ← found es]
    cases es.find? (i ≤ ·) <;> simp
  | leaf l =>
    simp only [Expr.children, List.not_mem_nil, false_implies, implies_true, and_true]
    cases l with
    | reference r =>
      by_cases hr : rules ≤ r <;>
        simp [checkExpr, Leaf.rule?, Expr.Fits, Expr.rule?, Grammar.boundsInOrder, hr, Nat.lt_of_not_le]
    | repetition r least most =>
      cases most with
      | none =>
        by_cases hr : rules ≤ r <;>
          simp [checkExpr, Leaf.rule?, Expr.Fits, Expr.rule?, Grammar.boundsInOrder, hr, Nat.lt_of_not_le]
      | some most =>
        by_cases hr : rules ≤ r
        · simp [checkExpr, Leaf.rule?, Expr.Fits, Expr.rule?, hr]
        · by_cases hm : most < least
          · simp [checkExpr, Leaf.rule?, Expr.Fits, Grammar.boundsInOrder, hr, hm]
          · simp [checkExpr, Leaf.rule?, Expr.Fits, Expr.rule?, Grammar.boundsInOrder, hr, hm,
              Nat.lt_of_not_le hr, UInt32.not_lt.1 hm]
    | _ => simp [checkExpr, Leaf.rule?, Expr.Fits, Expr.rule?, Grammar.boundsInOrder]

private theorem checkExprs_eq_ok {rules : Nat} {es : List Expr} : ∀ {i : Nat},
    checkExprs rules i es = .ok () ↔
      ∀ (k : Nat) (e : Expr), es[k]? = some e → checkExpr rules (i + k) e = .ok () := by
  induction es with
  | nil => simp [checkExprs]
  | cons x es ih =>
    intro i
    simp only [checkExprs, Except.bind_eq_ok, ih]
    constructor
    · rintro ⟨_, hx, hes⟩ k e he
      cases k with
      | zero =>
        obtain rfl : x = e := by simpa using he
        exact hx
      | succ k =>
        rw [show i + (k + 1) = i + 1 + k by omega]
        exact hes k e (by simpa using he)
    · intro h
      refine ⟨(), h 0 x rfl, fun k e he => ?_⟩
      rw [show i + 1 + k = i + (k + 1) by omega]
      exact h (k + 1) e (by simpa using he)

/-- A draft is finished as the valid grammar with the same nodes and rules. -/
theorem finish_eq_ok {d : Draft} {root : RuleId} {g : Grammar} :
    d.finish root = .ok g ↔
      g.Valid ∧ g.root = root ∧ g.exprs = d.exprs ∧ d.rules = g.rules.map Rule.draft := by
  have checks {rules : Nat} : checkExprs rules 0 d.exprs.toList = .ok () ↔
      ∀ i (h : i < d.exprs.size), d.exprs[i].Fits rules ∧ ∀ c ∈ d.exprs[i].children, c < i := by
    simp only [checkExprs_eq_ok, checkExpr_eq_ok, Nat.zero_add, Array.getElem?_toList]
    exact ⟨fun h i hi => h i _ (by simp [hi]), fun h i e he => by
      obtain ⟨hi, rfl⟩ := Array.getElem?_eq_some_iff.1 he
      exact h i hi⟩
  have rules_eq {rules : List Rule} (h : d.rules.toList = rules.map Rule.draft) :
      d.rules = rules.toArray.map Rule.draft := by
    apply Array.toList_inj.1
    simpa using h
  unfold finish
  by_cases hroot : d.rules.size ≤ root
  · simp only [hroot, if_true, throw, throwThe, MonadExceptOf.throw, bind, Except.bind, reduceCtorEq,
      false_iff]
    rintro ⟨hg, rfl, -, hrules⟩
    have := hg.root_lt
    rw [hrules, Array.size_map] at hroot
    exact absurd this (Nat.not_lt.2 hroot)
  · simp only [hroot, if_false, Except.bind_eq_ok, mapM_finishRule, checks, pure, Except.pure,
      Except.ok.injEq]
    constructor
    · rintro ⟨rules, ⟨hrules, hbounds⟩, -, hexprs, rfl⟩
      have hsize : rules.length = d.rules.size := by
        simpa using (congrArg List.length hrules).symm
      have node {e : Expr} (he : e ∈ d.exprs) : e.Fits d.rules.size := by
        obtain ⟨i, hi, rfl⟩ := Array.mem_iff_getElem.1 he
        exact (hexprs i hi).1
      refine ⟨Grammar.valid_iff.2 ⟨?_, ?_, ?_, ?_, ?_, ?_⟩, rfl, rfl, rules_eq hrules⟩
      · simpa [hsize] using hroot
      · exact fun r hr => (hbounds r (List.mem_toArray.1 hr)).1
      · exact fun r hr => (hbounds r (List.mem_toArray.1 hr)).2
      · intro e he r hr
        simpa [hsize] using (node he).1 r hr
      · exact fun e he => (node he).2
      · exact fun i hi => (hexprs i hi).2
    · rintro ⟨hg, rfl, hexprs, hrules⟩
      obtain ⟨-, body, lookahead, rule, bounds, child⟩ := Grammar.valid_iff.1 hg
      refine ⟨g.rules.toList, ⟨by simp [hrules], fun r hr => ?_⟩, (), fun i hi => ?_, ?_⟩
      · rw [← hexprs]
        exact ⟨body r (Array.mem_toList_iff.1 hr), lookahead r (Array.mem_toList_iff.1 hr)⟩
      · simp only [← hexprs] at hi ⊢
        have hmem := Array.getElem_mem hi
        refine ⟨⟨fun r hr => ?_, bounds _ hmem⟩, child i hi⟩
        simpa [hrules] using rule _ hmem r hr
      · simp [← hexprs]

/-! ## Orderly drafts -/

/-- The body of a rule, if the rule has one. -/
def body? (d : Draft) (r : RuleId) : Option ExprId := (d.rules[r]?.map (·.body)).join

/-- The names of the rules. -/
def ruleNames (d : Draft) : List String := d.rules.toList.map (·.name)

/-- What actions agree on: the number of rules that are declared before anything is added, whether
nodes have to fit, what the names and bodies of further rules are like, and whether nothing has to
follow further rules. -/
structure Contract where
  declared : Nat
  checked : Prop
  further : String → Tree → Prop
  unfollowed : Prop

/-- A draft that only lacks bodies. -/
structure Orderly (c : Contract) (d : Draft) : Prop where
  declared_le : c.declared ≤ d.rules.size
  child_lt : ∀ (i : Nat) (e : Expr), d.exprs[i]? = some e → ∀ x ∈ e.children, x < i
  fits : c.checked → ∀ e ∈ d.exprs, e.Fits d.rules.size
  body_lt : ∀ r ∈ d.rules, ∀ b ∈ r.body, b < d.exprs.size
  lookahead_lt : ∀ r ∈ d.rules, ∀ l ∈ r.lookahead, l.expr < d.exprs.size
  lists : d.names.Lists d.ruleNames
  nodup : (d.ruleNames.take c.declared).Nodup → d.ruleNames.Nodup

/-- Something that an action knows to be in a draft. -/
inductive Place
  | node (e : ExprId)
  | leaf (l : Leaf)
  | rule (r : RuleId)

def Place.In (d : Draft) : Place → Prop
  | .node e => e < d.exprs.size
  | .leaf l => .leaf l ∈ d.exprs
  | .rule r => r < d.rules.size

/-- What is in a draft with nodes that fit `rules` rules. -/
def Place.Fits (rules : Nat) : Place → Prop
  | .node _ => True
  | .leaf l => (Expr.leaf l).Fits rules
  | .rule r => r < rules

@[simp] theorem Place.fits_rule {n : Nat} {r : RuleId} : (Place.rule r).Fits n ↔ r < n := Iff.rfl

@[simp] theorem Place.fits_leaf {n : Nat} {l : Leaf} :
    (Place.leaf l).Fits n ↔ (Expr.leaf l).Fits n := Iff.rfl

@[simp] theorem Place.in_node {d : Draft} {e : ExprId} : (Place.node e).In d ↔ e < d.exprs.size :=
  Iff.rfl

@[simp] theorem Place.in_leaf {d : Draft} {l : Leaf} : (Place.leaf l).In d ↔ .leaf l ∈ d.exprs :=
  Iff.rfl

@[simp] theorem Place.in_rule {d : Draft} {r : RuleId} : (Place.rule r).In d ↔ r < d.rules.size :=
  Iff.rfl

/-- Something that a rule can be given. -/
inductive Slot
  | body (r : RuleId)
  | lookahead (r : RuleId)

def Slot.rule : Slot → RuleId
  | .body r | .lookahead r => r

/-- Rules hold the same in a slot. -/
def Slot.Same (rules rules' : Array DraftRule) : Slot → Prop
  | .body r => rules[r]?.map (·.body) = rules'[r]?.map (·.body)
  | .lookahead r => rules[r]?.map (·.lookahead) = rules'[r]?.map (·.lookahead)

theorem Slot.Same.refl (rules : Array DraftRule) (s : Slot) : s.Same rules rules := by
  cases s <;> rfl

theorem Slot.Same.trans {s : Slot} {rules rules' rules'' : Array DraftRule}
    (h : s.Same rules rules') (h' : s.Same rules' rules'') : s.Same rules rules'' := by
  cases s <;> exact Eq.trans h h'

/-! ## Growth -/

/-- A draft with more in it: of the slots of older rules only those in `T` differ, and these bodies
and those of new rules are there. -/
structure Extends (c : Contract) (T : Set Slot) (d d' : Draft) : Prop where
  exprs : d.exprs.toList <+: d'.exprs.toList
  size_le : d.rules.size ≤ d'.rules.size
  name : ∀ r : Nat, r < d.rules.size → d'.rules[r]?.map (·.name) = d.rules[r]?.map (·.name)
  slot_lt : ∀ s ∈ T, s.rule < c.declared
  kept : ∀ s : Slot, s ∉ T → s.rule < d.rules.size → s.Same d.rules d'.rules
  filled : ∀ r : Nat, .body r ∈ T ∨ d.rules.size ≤ r ∧ r < d'.rules.size → ∃ b, d'.body? r = some b

/-- A grammar takes over what has been added to a draft. -/
structure Becomes (T : Set Slot) (d d' : Draft) (g : Grammar) : Prop where
  exprs : d'.exprs.toList <+: g.exprs.toList
  rules : ∀ r : Nat, d.rules.size ≤ r → r < d'.rules.size → d'.rules[r]? = g.rules[r]?.map Rule.draft
  slots : ∀ s ∈ T, s.Same d'.rules (g.rules.map Rule.draft)

variable {c : Contract} {T A B : Set Slot} {d d₁ d₂ : Draft} {g : Grammar}

theorem Extends.exprs_size_le (h : Extends c T d d₁) : d.exprs.size ≤ d₁.exprs.size := by
  simpa using h.exprs.length_le

theorem Extends.refl (c : Contract) (d : Draft) : Extends c ∅ d d where
  exprs := List.prefix_rfl
  size_le := le_rfl
  name _ _ := rfl
  slot_lt := by simp
  kept s _ _ := .refl _ s
  filled r h := by
    rcases h with h | h
    · exact absurd h (Set.notMem_empty _)
    · omega

theorem Extends.place (h : Extends c T d d₁) {p : Place} (hp : p.In d) : p.In d₁ := by
  cases p with
  | node e => exact Nat.lt_of_lt_of_le hp h.exprs_size_le
  | leaf l => exact Array.mem_toList_iff.1 (h.exprs.subset (Array.mem_toList_iff.2 hp))
  | rule r => exact Nat.lt_of_lt_of_le hp h.size_le

/-- A rule without a slot in `T` stays what it is. -/
theorem Extends.rule (h : Extends c T d d₁) {r : Nat} (hr : r < d.rules.size)
    (hT : ∀ s ∈ T, s.rule ≠ r) : d₁.rules[r]? = d.rules[r]? := by
  have hr₁ := hr.trans_le h.size_le
  have name := h.name r hr
  have body := h.kept (.body r) (fun hs => hT _ hs rfl) hr
  have lookahead := h.kept (.lookahead r) (fun hs => hT _ hs rfl) hr
  simp only [Slot.Same, hr, hr₁, getElem?_pos, Option.map_some, Option.some.injEq] at *
  generalize d.rules[r] = rule, d₁.rules[r] = rule₁ at *
  cases rule
  cases rule₁
  simp_all

theorem Extends.rule_of_declared_le (h : Extends c T d d₁) {r : Nat} (hr : r < d.rules.size)
    (hc : c.declared ≤ r) : d₁.rules[r]? = d.rules[r]? :=
  h.rule hr fun s hs => Nat.ne_of_lt ((h.slot_lt s hs).trans_le hc)

theorem Extends.trans (h : Extends c A d d₁) (h' : Extends c B d₁ d₂)
    (hd : c.declared ≤ d.rules.size) : Extends c (A ∪ B) d d₂ where
  exprs := h.exprs.trans h'.exprs
  size_le := h.size_le.trans h'.size_le
  name r hr := (h'.name r (hr.trans_le h.size_le)).trans (h.name r hr)
  slot_lt s hs := hs.elim (h.slot_lt s) (h'.slot_lt s)
  kept s hs hr := (h.kept s (fun hA => hs (Or.inl hA)) hr).trans
    (h'.kept s (fun hB => hs (Or.inr hB)) (hr.trans_le h.size_le))
  filled r hr := by
    by_cases hB : .body r ∈ B ∨ d₁.rules.size ≤ r ∧ r < d₂.rules.size
    · exact h'.filled r hB
    · have hA : .body r ∈ A ∨ d.rules.size ≤ r ∧ r < d₁.rules.size := by
        rcases hr with (hA | hB') | ⟨hle, hlt⟩
        · exact Or.inl hA
        · exact absurd (Or.inl hB') hB
        · exact Or.inr ⟨hle, Nat.lt_of_not_le fun hle => hB (Or.inr ⟨hle, hlt⟩)⟩
      obtain ⟨b, hb⟩ := h.filled r hA
      have hr₁ : r < d₁.rules.size := by
        rcases hA with hA | hA
        · have : r < c.declared := h.slot_lt _ hA
          have := h.size_le
          omega
        · exact hA.2
      have same : d₁.rules[r]?.map (·.body) = d₂.rules[r]?.map (·.body) :=
        h'.kept (.body r) (fun hs => hB (Or.inl hs)) hr₁
      refine ⟨b, ?_⟩
      rw [body?, ← same]
      exact hb

/-- What a grammar takes over from two actions after one another it takes over from each. -/
theorem Becomes.split (h : Extends c A d d₁) (h' : Extends c B d₁ d₂)
    (hd : c.declared ≤ d.rules.size) (hAB : Disjoint A B) (hg : Becomes (A ∪ B) d d₂ g) :
    Becomes A d d₁ g ∧ Becomes B d₁ d₂ g := by
  refine ⟨⟨h'.exprs.trans hg.exprs, fun r hle hlt => ?_, fun s hs => ?_⟩, hg.exprs, ?_, ?_⟩
  · rw [← hg.rules r hle (hlt.trans_le h'.size_le), h'.rule_of_declared_le hlt (hd.trans hle)]
  · have hlt : s.rule < d₁.rules.size := ((h.slot_lt s hs).trans_le hd).trans_le h.size_le
    exact (h'.kept s (Set.disjoint_left.1 hAB hs) hlt).trans (hg.slots s (Or.inl hs))
  · exact fun r hle hlt => hg.rules r (h.size_le.trans hle) hlt
  · exact fun s hs => hg.slots s (Or.inr hs)

/-- Nodes keep their numbers. -/
theorem node_of_initial {es es' : Array Expr} (h : es.toList <+: es'.toList) {i : ExprId} {e : Expr}
    (he : es[i]? = some e) : es'[i]? = some e := by
  obtain ⟨rest, hrest⟩ := h
  rw [← Array.getElem?_toList] at he ⊢
  rw [← hrest, List.getElem?_append_left (List.getElem?_eq_some_iff.1 he).1, he]

/-! ## Actions -/

/-- The rules from `lo` up to `hi` are what a contract says of further rules. -/
def Contract.Holds (c : Contract) (g : Grammar) (lo hi : Nat) : Prop :=
  ∀ (r : Nat) (rule : Rule), lo ≤ r → r < hi → g.rules[r]? = some rule →
    c.further rule.name (g.tree rule.body) ∧ (c.unfollowed → rule.lookahead = none)

/-- What an action can count on: places in the draft, and a fact about what the draft becomes. -/
structure Known where
  places : List Place
  fact : Grammar → Prop

namespace Known

instance : Membership Place Known := ⟨fun k p => p ∈ k.places⟩

def nothing : Known := ⟨[], fun _ => True⟩

def and (k : Known) (places : List Place) (fact : Grammar → Prop) : Known :=
  ⟨places ++ k.places, fun g => k.fact g ∧ fact g⟩

@[simp] theorem mem_and {k : Known} {places : List Place} {fact : Grammar → Prop} {p : Place} :
    p ∈ k.and places fact ↔ p ∈ places ∨ p ∈ k := List.mem_append

@[simp] theorem not_mem_nothing {p : Place} : p ∉ nothing := List.not_mem_nil

end Known

/-- What is so after an action. -/
structure Outcome (c : Contract) (T : Set Slot) (d d' : Draft) (fact : Grammar → Prop)
    (made : List Place) (Q : Grammar → Prop) : Prop where
  grows : Extends c T d d'
  orderly : d'.Orderly c
  made : ∀ p ∈ made, p.In d'
  holds : ∀ g, g.Valid → Becomes T d d' g → fact g → c.Holds g d.rules.size d'.rules.size
  spec : ∀ g, g.Valid → Becomes T d d' g → fact g → Q g

/-- An action that is started where `known` is so fills in the slots `T`, adds further rules that are
what the contract says, and answers places `made`; `Q` holds of its answer in every grammar that
takes over what it added. -/
def Fills (c : Contract) (T : Set Slot) (known : Known) {α : Type} (m : StateM Draft α)
    (made : α → List Place) (Q : α → Grammar → Prop) : Prop :=
  ∀ d, d.Orderly c → (∀ p ∈ known, p.In d) →
    Outcome c T d (m d).2 known.fact (made (m d).1) (Q (m d).1)

/-- An action that leaves the slots of older rules alone. -/
abbrev Adds (c : Contract) (known : Known) {α : Type} (m : StateM Draft α)
    (made : α → List Place) (Q : α → Grammar → Prop) : Prop :=
  Fills c ∅ known m made Q

section Fills

variable {α β : Type} {known : Known} {m : StateM Draft α} {made : α → List Place}
  {Q Q' : α → Grammar → Prop} {made' : β → List Place} {R : β → Grammar → Prop}

theorem Fills.imp (h : Fills c T known m made Q) (hQ : ∀ a g, g.Valid → Q a g → Q' a g) :
    Fills c T known m made Q' := fun d hd hk =>
  let out := h d hd hk
  ⟨out.grows, out.orderly, out.made, out.holds, fun g hg hb hf => hQ _ g hg (out.spec g hg hb hf)⟩

theorem Fills.bind {f : α → StateM Draft β} (h : Fills c A known m made Q)
    (hf : ∀ a, Fills c B (known.and (made a) (Q a)) (f a) made' fun b g => Q a g → R b g)
    (hT : T = A ∪ B) (hAB : Disjoint A B) : Fills c T known (m >>= f) made' R := by
  subst hT
  intro d hd hk
  have h₁ := h d hd hk
  have h₂ := hf (m d).1 (m d).2 h₁.orderly fun p hp =>
    (Known.mem_and.1 hp).elim (h₁.made p) fun hp => h₁.grows.place (hk p hp)
  have split {g : Grammar} := Becomes.split (g := g) h₁.grows h₂.grows hd.declared_le hAB
  refine ⟨h₁.grows.trans h₂.grows hd.declared_le, h₂.orderly, h₂.made, ?_, ?_⟩
  · intro g hg hb hfact r rule hlo hhi hr
    rcases Nat.lt_or_ge r (m d).2.rules.size with hlt | hle
    · exact h₁.holds g hg (split hb).1 hfact r rule hlo hlt hr
    · exact h₂.holds g hg (split hb).2 ⟨hfact, h₁.spec g hg (split hb).1 hfact⟩ r rule hle hhi hr
  · intro g hg hb hfact
    have hQ := h₁.spec g hg (split hb).1 hfact
    exact h₂.spec g hg (split hb).2 ⟨hfact, hQ⟩ hQ

theorem Adds.bind {f : α → StateM Draft β} (h : Adds c known m made Q)
    (hf : ∀ a, Adds c (known.and (made a) (Q a)) (f a) made' fun b g => Q a g → R b g) :
    Adds c known (m >>= f) made' R :=
  Fills.bind h hf (Set.union_self _).symm (Set.disjoint_empty _)

theorem Adds.fill {f : α → StateM Draft β} (h : Adds c known m made Q)
    (hf : ∀ a, Fills c T (known.and (made a) (Q a)) (f a) made' fun b g => Q a g → R b g) :
    Fills c T known (m >>= f) made' R :=
  Fills.bind h hf (Set.empty_union _).symm (Set.empty_disjoint _)

/-- An action that only looks at the draft. -/
theorem Adds.read (h : ∀ d : Draft, d.Orderly c → (∀ p ∈ known, p.In d) →
    (m d).2 = d ∧ (∀ p ∈ made (m d).1, p.In d) ∧
      ∀ g, g.Valid → d.exprs.toList <+: g.exprs.toList → known.fact g → Q (m d).1 g) :
    Adds c known m made Q := by
  intro d hd hk
  obtain ⟨hstate, hmade, hQ⟩ := h d hd hk
  rw [hstate]
  refine ⟨.refl c d, hd, hmade, fun g _ _ _ r rule hlo hhi => ?_, fun g hg hb => hQ g hg hb.exprs⟩
  omega

theorem Adds.pure {a : α} (hmade : ∀ p ∈ made a, p ∈ known)
    (hQ : ∀ g, g.Valid → known.fact g → Q a g) : Adds c known (pure a) made Q :=
  Adds.read fun _ _ hk => ⟨rfl, fun p hp => hk p (hmade p hp), fun g hg _ => hQ g hg⟩

/-- A declared rule can be answered. -/
theorem Adds.declared {r : RuleId} {Q : RuleId → Grammar → Prop} (hr : r < c.declared)
    (hQ : ∀ g, g.Valid → known.fact g → Q r g) : Adds c known (Pure.pure r) (fun r => [.rule r]) Q :=
  Adds.read fun d hd _ => ⟨rfl, by
    rintro _ hp
    obtain rfl := List.mem_singleton.1 hp
    exact hr.trans_le hd.declared_le, fun g hg _ => hQ g hg⟩

/-- Actions one after the other, each of which can be started where the first one is. -/
theorem Adds.mapM {ι : Type} {f : ι → StateM Draft α} {P : ι → α → Grammar → Prop} (xs : List ι) :
    ∀ known : Known, (∀ x ∈ xs, ∀ known' : Known, (∀ p ∈ known, p ∈ known') →
      Adds c known' (f x) made (P x)) →
    Adds c known (xs.mapM f) (fun as => as.flatMap made)
      fun as g => List.Forall₂ (fun x a => P x a g) xs as := by
  induction xs with
  | nil =>
    intro known _
    rw [List.mapM_nil]
    exact Adds.pure (by simp) fun _ _ _ => .nil
  | cons x xs ih =>
    intro known h
    rw [List.mapM_cons]
    refine (h x (by simp) known fun _ => id).bind fun a => (ih _ fun y hy known' hk => ?_).bind
      fun as => Adds.pure ?_ fun g _ _ has ha => .cons ha has
    · exact h y (by simp [hy]) known' fun p hp => hk p (by simp [hp])
    · intro p hp
      rw [List.flatMap_cons, List.mem_append] at hp
      exact Known.mem_and.2 (hp.symm.imp_right fun hp => Known.mem_and.2 (Or.inl hp))

/-- What a node shows when it is looked at: itself, if it is a leaf, and its parts. -/
def shown : Option Expr → List Place
  | none => []
  | some (.leaf l) => [.leaf l]
  | some e => e.children.map .node

theorem shown_in {d : Draft} (hd : d.Orderly c) {e : ExprId} (he : e < d.exprs.size) :
    ∀ p ∈ shown (d.node? e), p.In d := by
  have hnode : d.exprs[e]? = some d.exprs[e] := by simp [he]
  have hchild := hd.child_lt e _ hnode
  have hmem := Array.getElem_mem he
  rw [node?, hnode]
  cases hn : d.exprs[e] with
  | leaf l =>
    rw [hn] at hmem
    simpa [shown] using hmem
  | sequence items =>
    rw [hn] at hchild
    simp only [shown, List.forall_mem_map]
    exact fun x hx => (hchild x hx).trans he
  | choice items =>
    rw [hn] at hchild
    simp only [shown, List.forall_mem_map]
    exact fun x hx => (hchild x hx).trans he

/-- A known node is found. -/
theorem Adds.node? {e : ExprId} (he : .node e ∈ known) :
    Adds c known (do return (← get).node? e) shown
      fun x g => ∃ n, x = some n ∧ g.tree e = n.toTree g.tree := by
  refine Adds.read fun d hd hk => ⟨rfl, shown_in hd (hk _ he), fun g hg hprefix _ => ?_⟩
  have hlt : e < d.exprs.size := hk _ he
  have hnode : d.exprs[e]? = some d.exprs[e] := by simp [hlt]
  exact ⟨d.exprs[e], hnode, hg.tree_eq (node_of_initial hprefix hnode)⟩

/-! ## Nodes, rules and slots -/

theorem Adds.add {e : Expr} (hchild : ∀ x ∈ e.children, .node x ∈ known)
    (hfits : c.checked → ∀ n, c.declared ≤ n → (∀ p ∈ known, p.Fits n) → e.Fits n) :
    Adds c known (Draft.add e) (fun i => [.node i]) fun i g => g.tree i = e.toTree g.tree := by
  intro d hd hk
  have size : d.exprs.size < (d.exprs.push e).size := by simp
  refine ⟨⟨by simp [Draft.add], le_rfl, fun _ _ => rfl, by simp, fun s _ _ => .refl _ s, ?_⟩,
    ⟨hd.declared_le, ?_, ?_, ?_, ?_, hd.lists, hd.nodup⟩, ?_, ?_, ?_⟩
  · rintro r (h | h)
    · exact absurd h (Set.notMem_empty _)
    · exact absurd h.2 (Nat.not_lt.2 h.1)
  · intro i n hn x hx
    change (d.exprs.push e)[i]? = some n at hn
    rw [Array.getElem?_push] at hn
    split at hn
    · obtain rfl := Option.some.inj hn
      have hlt : x < d.exprs.size := hk _ (hchild x hx)
      exact hlt.trans_eq (by assumption : i = d.exprs.size).symm
    · exact hd.child_lt i n hn x hx
  · intro hc n hn
    rcases Array.mem_push.1 hn with hn | rfl
    · exact hd.fits hc n hn
    · refine hfits hc _ hd.declared_le fun p hp => ?_
      cases p with
      | node e => trivial
      | leaf l => exact hd.fits hc _ (hk _ hp)
      | rule r => exact hk _ hp
  · exact fun r hr b hb => (hd.body_lt r hr b hb).trans size
  · exact fun r hr l hl => (hd.lookahead_lt r hr l hl).trans size
  · intro p hp
    obtain rfl := List.mem_singleton.1 hp
    exact size
  · intro g _ _ _ r rule hlo hhi
    exact absurd hhi (Nat.not_lt.2 hlo)
  · exact fun g hg hb _ => hg.tree_eq (node_of_initial hb.exprs (by simp [Draft.add]))

theorem Adds.addLeaf {l : Leaf} (h : c.checked → l.Fits c.declared) :
    Adds c known (Draft.addLeaf l) (fun i => [.node i]) fun i g => g.tree i = .leaf l :=
  Adds.add (by simp [Expr.children]) fun hc _ hn _ => (h hc).expr.mono hn

/-- A leaf that refers to no rule can be added anywhere. -/
theorem Adds.plainLeaf {l : Leaf} (h : l.rule? = none) :
    Adds c known (Draft.addLeaf l) (fun i => [.node i]) fun i g => g.tree i = .leaf l :=
  Adds.addLeaf fun _ => ⟨by simp [h], by rintro r least most rfl; simp [Leaf.rule?] at h⟩

/-- A rule that is declared or known can be referred to. -/
theorem Adds.reference {r : RuleId} (hr : r < c.declared ∨ .rule r ∈ known) :
    Adds c known (Draft.addLeaf (.reference r)) (fun i => [.node i])
      fun i g => g.tree i = .leaf (.reference r) :=
  Adds.add (by simp [Expr.children]) fun _ n hdeclared hn =>
    ⟨by simpa [Expr.rule?, Leaf.rule?] using hr.elim (fun h => h.trans_le hdeclared) (hn _), rfl⟩

theorem Adds.sequence {items : List ExprId} (hk : ∀ e ∈ items, .node e ∈ known) :
    Adds c known (Draft.add (.sequence items)) (fun e => [.node e])
      fun e g => g.tree e = .sequence (items.map g.tree) :=
  Adds.add (e := .sequence items) hk fun _ _ _ _ =>
    by simp [Expr.Fits, Expr.rule?, Grammar.boundsInOrder]

theorem Adds.choice {items : List ExprId} (hk : ∀ e ∈ items, .node e ∈ known) :
    Adds c known (Draft.add (.choice items)) (fun e => [.node e])
      fun e g => g.tree e = .choice (items.map g.tree) :=
  Adds.add (e := .choice items) hk fun _ _ _ _ =>
    by simp [Expr.Fits, Expr.rule?, Grammar.boundsInOrder]

end Fills

theorem ruleNames_modify {r : RuleId} {f : DraftRule → DraftRule} (hf : ∀ x, (f x).name = x.name) :
    ({ d with rules := d.rules.modify r f } : Draft).ruleNames = d.ruleNames := by
  refine List.ext_getElem? fun i => ?_
  simp only [ruleNames, List.getElem?_map, Array.getElem?_toList, Array.getElem?_modify]
  split <;> simp [Option.map_map, Function.comp_def, hf]

private theorem mem_modify {α : Type} {xs : Array α} {i : Nat} {f : α → α} {x : α}
    (h : x ∈ xs.modify i f) : x ∈ xs ∨ ∃ y ∈ xs, x = f y := by
  obtain ⟨j, hj⟩ := Array.mem_iff_getElem?.1 h
  rw [Array.getElem?_modify] at hj
  split at hj
  · obtain ⟨y, hy, rfl⟩ := Option.map_eq_some_iff.1 hj
    exact Or.inr ⟨y, Array.mem_of_getElem? hy, rfl⟩
  · exact Or.inl (Array.mem_of_getElem? hj)

private theorem Orderly.modify (h : d.Orderly c) (r : RuleId) {f : DraftRule → DraftRule}
    (hname : ∀ x, (f x).name = x.name)
    (hbody : ∀ x ∈ d.rules, ∀ b ∈ (f x).body, b < d.exprs.size)
    (hlookahead : ∀ x ∈ d.rules, ∀ l ∈ (f x).lookahead, l.expr < d.exprs.size) :
    ({ d with rules := d.rules.modify r f } : Draft).Orderly c := by
  refine ⟨by simpa using h.declared_le, h.child_lt, by simpa using h.fits, ?_, ?_, ?_, ?_⟩
  · intro x hx
    rcases mem_modify hx with hx | ⟨y, hy, rfl⟩
    · exact h.body_lt x hx
    · exact hbody y hy
  · intro x hx
    rcases mem_modify hx with hx | ⟨y, hy, rfl⟩
    · exact h.lookahead_lt x hx
    · exact hlookahead y hy
  · rw [ruleNames_modify hname]
    exact h.lists
  · rw [ruleNames_modify hname]
    exact h.nodup

theorem Orderly.addFresh (h : d.Orderly c) (base : String) :
    (addFreshRule base d).2.Orderly c := by
  have names : (addFreshRule base d).2.ruleNames = d.ruleNames ++ [d.names.unused base] := by
    simp [addFreshRule, addRule, ruleNames]
  have size : (addFreshRule base d).2.rules.size = d.rules.size + 1 := by
    simp [addFreshRule, addRule]
  have length : d.ruleNames.length = d.rules.size := by simp [ruleNames]
  refine ⟨?_, h.child_lt, ?_, ?_, ?_, ?_, ?_⟩
  · have := h.declared_le
    omega
  · exact fun hc e he => (h.fits hc e he).mono (by omega)
  · intro x hx
    rcases Array.mem_push.1 hx with hx | rfl
    · exact h.body_lt x hx
    · simp
  · intro x hx
    rcases Array.mem_push.1 hx with hx | rfl
    · exact h.lookahead_lt x hx
    · simp
  · rw [names]
    exact h.lists.declare _
  · rw [names, List.take_append_of_le_length (length ▸ h.declared_le)]
    intro hnodup
    refine List.nodup_append.2 ⟨h.nodup hnodup, by simp, ?_⟩
    have new := h.lists.find?_eq_none.1 (d.names.find?_unused base)
    simp only [List.mem_singleton, forall_eq]
    exact fun name hname heq => new (heq ▸ hname)

private theorem Orderly.giveBody (h : d.Orderly c) {r : RuleId} {b : ExprId} (hb : b < d.exprs.size) :
    (giveBody r b d).2.Orderly c := by
  refine h.modify r (fun _ => rfl) ?_ h.lookahead_lt
  rintro x - _ ⟨⟩
  exact hb

private theorem getElem?_giveBody_of_ne {r i : RuleId} {b : ExprId} (h : i ≠ r) :
    (giveBody r b d).2.rules[i]? = d.rules[i]? := by
  change (d.rules.modify _ _)[i]? = _
  rw [Array.getElem?_modify, if_neg h.symm]

section rule

variable {base : String} {b : ExprId} {known : Known} {m : StateM Draft ExprId}
  {Q : ExprId → Grammar → Prop}

/-- A rule that has been added stays until it is given a body. -/
private theorem Extends.rule_given (h : Extends c T (addFreshRule base d).2 d₂)
    (hd : c.declared ≤ d.rules.size) :
    (giveBody d.rules.size b d₂).2.rules[d.rules.size]? = some ⟨d.names.unused base, some b, none⟩ := by
  have added : (addFreshRule base d).2.rules[d.rules.size]? =
      some ⟨d.names.unused base, none, none⟩ := by
    simp [addFreshRule, addRule]
  have kept : d₂.rules[d.rules.size]? = some ⟨d.names.unused base, none, none⟩ := by
    rw [h.rule_of_declared_le (by simp [addFreshRule, addRule]) hd, added]
  change (d₂.rules.modify _ _)[d.rules.size]? = _
  rw [Array.getElem?_modify, if_pos rfl, kept]
  rfl

/-- Adding a rule, then what its body is made of, and then giving it the body only adds. -/
private theorem Extends.withRule (h : Extends c ∅ (addFreshRule base d).2 d₂)
    (hd : c.declared ≤ d.rules.size) : Extends c ∅ d (giveBody d.rules.size b d₂).2 := by
  have size : (addFreshRule base d).2.rules.size = d.rules.size + 1 := by
    simp [addFreshRule, addRule]
  have size_le := h.size_le
  have older (i : Nat) (hi : i < d.rules.size) :
      (giveBody d.rules.size b d₂).2.rules[i]? = d.rules[i]? := by
    rw [getElem?_giveBody_of_ne hi.ne, h.rule (by omega) (by simp)]
    simp [addFreshRule, addRule, Array.getElem?_push, hi.ne]
  have size_giveBody : (giveBody d.rules.size b d₂).2.rules.size = d₂.rules.size := Array.size_modify
  refine ⟨h.exprs, by omega, fun r hr => by rw [older r hr], by simp, ?_, ?_⟩
  · intro s _ hs
    cases s with
    | body r => exact congrArg _ (older r hs).symm
    | lookahead r => exact congrArg _ (older r hs).symm
  · rintro r (hr | ⟨hle, hlt⟩)
    · exact absurd hr (Set.notMem_empty _)
    · rcases Nat.lt_or_eq_of_le hle with hgt | rfl
      · rw [body?, getElem?_giveBody_of_ne hgt.ne']
        exact h.filled r (Or.inr ⟨by omega, by omega⟩)
      · exact ⟨b, by rw [body?, h.rule_given hd]; rfl⟩

/-- A grammar takes over a rule of which it takes over the body. -/
private theorem Becomes.rule_eq {T : Set Slot} {d' : Draft} {r : Nat} {name : String}
    {l : Option Lookahead} (h : Becomes T d d' g) (hle : d.rules.size ≤ r)
    (hr : d'.rules[r]? = some ⟨name, some b, l⟩) : g.rules[r]? = some ⟨name, b, l⟩ := by
  have hlt : r < d'.rules.size := (Array.getElem?_eq_some_iff.1 hr).1
  have taken := h.rules r hle hlt
  rw [hr] at taken
  obtain ⟨⟨name, body, lookahead⟩, hrule, heq⟩ := Option.map_eq_some_iff.1 taken.symm
  simp only [Rule.draft, DraftRule.mk.injEq, Option.some.injEq] at heq
  rw [hrule, heq.1, heq.2.1, heq.2.2]

/-- What is taken over with a rule is what its body is made of. -/
private theorem Becomes.ofRule (h : Becomes ∅ d (giveBody d.rules.size b d₂).2 g) :
    Becomes ∅ (addFreshRule base d).2 d₂ g := by
  have size : (addFreshRule base d).2.rules.size = d.rules.size + 1 := by
    simp [addFreshRule, addRule]
  have size_giveBody : (giveBody d.rules.size b d₂).2.rules.size = d₂.rules.size := Array.size_modify
  refine ⟨h.exprs, fun r hle hlt => ?_, by simp⟩
  have later : r ≠ d.rules.size := by omega
  rw [← h.rules r (by omega) (by omega), getElem?_giveBody_of_ne later]

/-- A further rule with the body that an action adds. -/
theorem Adds.rule (base : String) (h : Adds c known m (fun b => [.node b]) Q)
    (hfurther : ∀ b g, g.Valid → known.fact g → Q b g → ∀ name, NameTable.Derived base name →
      c.further name (g.tree b)) :
    Adds c known (do let r ← addFreshRule base; giveBody r (← m); return r) (fun r => [.rule r])
      fun r g => c.declared ≤ r ∧ ∃ b, Q b g ∧ g.body r = some (g.tree b) := by
  intro d hd hk
  have run : (do let r ← addFreshRule base; giveBody r (← m); return r : StateM Draft RuleId) d =
      (d.rules.size,
        (giveBody d.rules.size (m (addFreshRule base d).2).1 (m (addFreshRule base d).2).2).2) := rfl
  rw [run]
  have size : (addFreshRule base d).2.rules.size = d.rules.size + 1 := by
    simp [addFreshRule, addRule]
  have out := h (addFreshRule base d).2 (hd.addFresh base) fun p hp => by
    cases p with
    | node e => exact hk _ hp
    | leaf l => exact hk _ hp
    | rule r => exact Nat.lt_of_lt_of_le (hk _ hp) (by omega)
  generalize m (addFreshRule base d).2 = answer at out
  obtain ⟨b, d₂⟩ := answer
  dsimp only at out ⊢
  have given := out.grows.rule_given (b := b) hd.declared_le
  refine ⟨out.grows.withRule hd.declared_le, out.orderly.giveBody (out.made (.node b) (by simp)),
    ?_, ?_, ?_⟩
  · intro p hp
    obtain rfl := List.mem_singleton.1 hp
    exact (Array.getElem?_eq_some_iff.1 given).1
  · intro g hg hbecomes hfact r rule hle hlt hr
    have size_giveBody : (giveBody d.rules.size b d₂).2.rules.size = d₂.rules.size :=
      Array.size_modify
    rcases Nat.lt_or_eq_of_le hle with hgt | rfl
    · exact out.holds g hg hbecomes.ofRule hfact r rule (by omega) (by omega) hr
    · obtain rfl := Option.some.inj (hr.symm.trans (hbecomes.rule_eq le_rfl given))
      have hQ := out.spec g hg hbecomes.ofRule hfact
      exact ⟨hfurther b g hg hfact hQ _ (d.names.derived_unused base), fun _ => rfl⟩
  · intro g hg hbecomes hfact
    refine ⟨hd.declared_le, b, out.spec g hg hbecomes.ofRule hfact, ?_⟩
    rw [Grammar.body, hbecomes.rule_eq le_rfl given]
    rfl

end rule

/-- Changing one slot of a declared rule. -/
private theorem Outcome.modify {s : Slot} {f : DraftRule → DraftRule} {fact Q : Grammar → Prop}
    (hs : s.rule < c.declared) (hname : ∀ x, (f x).name = x.name)
    (orderly : ({ d with rules := d.rules.modify s.rule f } : Draft).Orderly c)
    (hkept : ∀ s' : Slot, s' ≠ s → s'.Same d.rules (d.rules.modify s.rule f))
    (hfilled : ∀ r : RuleId, s = .body r →
      ∃ b, (d.rules.modify s.rule f)[r]?.map (·.body) = some (some b))
    (hQ : ∀ g : Grammar, s.Same (d.rules.modify s.rule f) (g.rules.map Rule.draft) → Q g) :
    Outcome c {s} d { d with rules := d.rules.modify s.rule f } fact [] Q := by
  refine ⟨⟨List.prefix_rfl, by simp, fun r _ => ?_, by simpa using hs, fun s' hs' _ => hkept s' hs',
    ?_⟩, orderly, by simp, fun g _ _ _ r rule hle hlt => ?_, fun g _ hb _ => hQ g (hb.slots s rfl)⟩
  · change (d.rules.modify _ _)[r]?.map _ = _
    rw [Array.getElem?_modify]
    split <;> simp [Option.map_map, Function.comp_def, hname]
  · rintro r (hr | ⟨hle, hlt⟩)
    · obtain ⟨b, hb⟩ := hfilled r (Set.mem_singleton_iff.1 hr).symm
      exact ⟨b, by rw [body?, hb]; rfl⟩
    · simp only [Array.size_modify] at hlt
      omega
  · simp only [Array.size_modify] at hlt
    omega

section slot

variable {known : Known} {r : RuleId}

theorem Fills.giveBody {b : ExprId} (hr : r < c.declared) (hb : .node b ∈ known) :
    Fills c {.body r} known (Draft.giveBody r b) (fun _ => [])
      fun _ g => g.rules[r]?.map (·.body) = some b := by
  intro d hd hk
  have hlt : r < d.rules.size := hr.trans_le hd.declared_le
  refine Outcome.modify (s := .body r) hr (fun _ => rfl) (hd.giveBody (hk _ hb)) ?_ ?_ ?_
  · intro s hs
    cases s with
    | body i =>
      have : r ≠ i := fun h => hs (h ▸ rfl)
      simp [Slot.Same, Slot.rule, Array.getElem?_modify, this]
    | lookahead i =>
      simp only [Slot.Same, Array.getElem?_modify]
      split <;> simp [Option.map_map, Function.comp_def]
  · rintro _ ⟨⟩
    refine ⟨b, ?_⟩
    rw [Slot.rule, Array.getElem?_modify, if_pos rfl]
    simp [hlt]
  · intro g hg
    simp only [Slot.Same, Slot.rule, Array.getElem?_modify, if_true, hlt, getElem?_pos,
      Option.map_some, Array.getElem?_map, Option.map_map] at hg
    obtain ⟨rule, hrule, heq⟩ := Option.map_eq_some_iff.1 hg.symm
    simpa [hrule, Rule.draft] using heq

theorem Fills.setLookahead {l : Lookahead} (hr : r < c.declared) (hl : .node l.expr ∈ known) :
    Fills c {.lookahead r} known (Draft.setLookahead r l) (fun _ => [])
      fun _ g => g.rules[r]?.map (·.lookahead) = some (some l) := by
  intro d hd hk
  have hlt : r < d.rules.size := hr.trans_le hd.declared_le
  refine Outcome.modify (s := .lookahead r) hr (fun _ => rfl)
    (hd.modify r (fun _ => rfl) hd.body_lt ?_) ?_ (by simp) ?_
  · rintro x - _ ⟨⟩
    exact hk _ hl
  · intro s hs
    cases s with
    | lookahead i =>
      have : r ≠ i := fun h => hs (h ▸ rfl)
      simp [Slot.Same, Slot.rule, Array.getElem?_modify, this]
    | body i =>
      simp only [Slot.Same, Array.getElem?_modify]
      split <;> simp [Option.map_map, Function.comp_def]
  · intro g hg
    simp only [Slot.Same, Slot.rule, Array.getElem?_modify, if_true, hlt, getElem?_pos,
      Option.map_some, Array.getElem?_map, Option.map_map] at hg
    obtain ⟨rule, hrule, heq⟩ := Option.map_eq_some_iff.1 hg.symm
    simpa [hrule, Rule.draft] using heq

end slot

/-- The slots of a rule: its body, and its lookahead if something has to follow it. -/
def ruleSlots (r : RuleId) (followed : Bool) : Set Slot :=
  {s | s = .body r ∨ followed = true ∧ s = .lookahead r}

/-- The slots of the rules from number `r` on. -/
def slotsFrom (r : Nat) : List Bool → Set Slot
  | [] => ∅
  | followed :: rest => ruleSlots r followed ∪ slotsFrom (r + 1) rest

theorem ruleSlots_false (r : RuleId) : ruleSlots r false = {.body r} := by
  ext s
  simp [ruleSlots]

theorem ruleSlots_true (r : RuleId) : ruleSlots r true = {.body r} ∪ {.lookahead r} := by
  ext s
  simp only [ruleSlots, true_and]
  exact Iff.rfl

theorem rule_of_mem_ruleSlots {r : RuleId} {followed : Bool} {s : Slot}
    (h : s ∈ ruleSlots r followed) : s.rule = r := by
  rcases h with rfl | ⟨-, rfl⟩ <;> rfl

theorem le_of_mem_slotsFrom {s : Slot} {flags : List Bool} : ∀ {r : Nat}, s ∈ slotsFrom r flags →
    r ≤ s.rule := by
  induction flags with
  | nil => exact fun h => absurd h (Set.notMem_empty _)
  | cons followed flags ih =>
    rintro r (h | h)
    · exact (rule_of_mem_ruleSlots h).ge
    · exact (Nat.le_succ r).trans (ih h)

theorem disjoint_slotsFrom (r : Nat) (followed : Bool) (flags : List Bool) :
    Disjoint (ruleSlots r followed) (slotsFrom (r + 1) flags) :=
  Set.disjoint_left.2 fun _ h h' =>
    Nat.not_succ_le_self r ((le_of_mem_slotsFrom h').trans (rule_of_mem_ruleSlots h).le)

theorem body_mem_slotsFrom {flags : List Bool} : ∀ {r i : Nat}, r ≤ i → i < r + flags.length →
    .body i ∈ slotsFrom r flags := by
  induction flags with
  | nil => intro r i hle hlt; simp at hlt; omega
  | cons followed flags ih =>
    intro r i hle hlt
    rcases Nat.lt_or_eq_of_le hle with h | rfl
    · exact Or.inr (ih h (by simp only [List.length_cons] at hlt; omega))
    · exact Or.inl (Or.inl rfl)

theorem lookahead_mem_slotsFrom {flags : List Bool} : ∀ {r k : Nat},
    .lookahead (r + k) ∈ slotsFrom r flags → flags[k]? = some true := by
  induction flags with
  | nil => exact fun h => absurd h (Set.notMem_empty _)
  | cons followed flags ih =>
    intro r k h
    cases k with
    | zero =>
      rcases h with (h | ⟨h, -⟩) | h
      · exact absurd h (by simp)
      · simpa using h
      · exact absurd (le_of_mem_slotsFrom h) (Nat.not_succ_le_self r)
    | succ k =>
      rcases h with h | h
      · have : r + (k + 1) = r := rule_of_mem_ruleSlots h
        omega
      · exact ih (r := r + 1) (by rwa [show r + 1 + k = r + (k + 1) by omega])

/-! ## From declared rules to a grammar -/

/-- A draft in which rules have been declared, and nothing else is. -/
structure Blank (names : List String) (d : Draft) : Prop where
  rules : d.rules.toList = names.map fun name => ⟨name, none, none⟩
  exprs : d.exprs = #[]
  lists : d.names.Lists names

theorem blank_empty : Blank [] .empty := ⟨rfl, rfl, NameTable.lists_empty⟩

theorem Blank.addRule {names : List String} (h : Blank names d) (name : String) :
    Blank (names ++ [name]) (addRule name d).2 :=
  ⟨by simp [Draft.addRule, h.rules], h.exprs, h.lists.declare name⟩

theorem Blank.size {names : List String} (h : Blank names d) : d.rules.size = names.length := by
  simpa using congrArg List.length h.rules

theorem Blank.orderly {names : List String} (h : Blank names d) (hc : c.declared = names.length) :
    d.Orderly c := by
  have hnames : d.ruleNames = names := by simp [ruleNames, h.rules, Function.comp_def]
  have blank {r : DraftRule} (hr : r ∈ d.rules) : r.body = none ∧ r.lookahead = none := by
    rw [← Array.mem_toList_iff, h.rules] at hr
    obtain ⟨name, -, rfl⟩ := List.mem_map.1 hr
    exact ⟨rfl, rfl⟩
  refine ⟨by rw [h.size, hc], by simp [h.exprs], by simp [h.exprs], ?_, ?_, hnames ▸ h.lists, ?_⟩
  · intro r hr b hb
    simp [(blank hr).1] at hb
  · intro r hr l hl
    simp [(blank hr).2] at hl
  · rw [hnames, hc, List.take_length]
    exact id

/-- The declared names stay the first ones. -/
theorem Blank.take_ruleNames {names : List String} (h : Blank names d) (hd : Extends c T d d₁) :
    d₁.ruleNames.take names.length = names := by
  refine List.ext_getElem? fun r => ?_
  rw [List.getElem?_take]
  split
  · rename_i hr
    have := hd.name r (h.size ▸ hr)
    rw [← Array.getElem?_toList, ← Array.getElem?_toList, h.rules] at this
    simpa [ruleNames, Function.comp_def] using this
  · rename_i hr
    simp [Nat.le_of_not_lt hr]

/-- A grammar that a draft becomes once the declared rules have been filled in. -/
structure Completes (c : Contract) (T : Set Slot) (names : List String) (g : Grammar) : Prop where
  valid : g.Valid
  size_le : names.length ≤ g.rules.size
  name : ∀ (r : Nat) (name : String), names[r]? = some name → g.rules[r]?.map (·.name) = some name
  lookahead : ∀ r : Nat, r < names.length → .lookahead r ∉ T →
    g.rules[r]?.map (·.lookahead) = some none
  holds : c.Holds g names.length g.rules.size
  nodup : names.Nodup → (g.rules.toList.map (·.name)).Nodup

/-- A rule has been given trees that go with a body and a lookahead, if there is one. -/
structure Given {α : Type} (R : Tree → α → Prop) (g : Grammar) (r : Nat) (body : α)
    (lookahead : Option (α × Bool)) : Prop where
  body : ∃ b, g.rules[r]?.map (·.body) = some b ∧ R (g.tree b) body
  lookahead : ∀ x ∈ lookahead, ∃ l, g.rules[r]?.map (·.lookahead) = some (some l) ∧
    l.isExact = x.2 ∧ R (g.tree l.expr) x.1

end Draft

/-- A rule has a name, a body and a lookahead, up to what goes with their trees. -/
def Grammar.HasRule {α : Type} (g : Grammar) (R : Tree → α → Prop) (r : RuleId) (name : String)
    (body : α) (lookahead : Option (α × Bool)) : Prop :=
  ∃ rule, g.rules[r]? = some rule ∧ rule.name = name ∧ R (g.tree rule.body) body ∧
    Option.Rel (fun l x => l.isExact = x.2 ∧ R (g.tree l.expr) x.1) rule.lookahead lookahead

/-- What has to follow a rule stays the same if the tree that goes with it describes the same. -/
theorem Grammar.HasRule.following_eq {g g' : Grammar} {R : Tree → Tree → Prop} {r r' : RuleId}
    {rule : Rule} {name : String} {body : Tree} (hrule : g.rules[r]? = some rule)
    (h : g'.HasRule R r' name body (rule.follower g.tree))
    (hR : ∀ l ∈ rule.lookahead, ∀ t, R t (g.tree l.expr) →
      t.language g'.reading = (g.tree l.expr).language g.reading) :
    g'.following r' = g.following r := by
  obtain ⟨rule', hrule', -, -, hrel⟩ := h
  simp only [following, hrule, hrule', Option.bind_some]
  unfold Rule.follower at hrel
  cases hl : rule.lookahead with
  | none =>
    rw [hl, Option.map_none] at hrel
    generalize rule'.lookahead = l' at hrel
    cases hrel
    rfl
  | some l =>
    rw [hl, Option.map_some] at hrel
    generalize rule'.lookahead = l' at hrel
    cases hrel with
    | some h => simp [h.1, hR l hl _ h.2]

namespace Draft

/-- What a rule has once the draft is a grammar. -/
theorem Completes.hasRule {α : Type} {R : Tree → α → Prop} {names : List String} {flags : List Bool}
    (h : Completes c (slotsFrom 0 flags) names g) {r : Nat} {name : String} {body : α}
    {lookahead : Option (α × Bool)} (hname : names[r]? = some name)
    (hflag : flags[r]? = some lookahead.isSome) (hgiven : Given R g r body lookahead) :
    g.HasRule R r name body lookahead := by
  obtain ⟨rule, hrule, heq⟩ := Option.map_eq_some_iff.1 (h.name r name hname)
  obtain ⟨b, hb, hR⟩ := hgiven.body
  rw [hrule, Option.map_some, Option.some.injEq] at hb
  subst hb
  refine ⟨rule, hrule, heq, hR, ?_⟩
  cases lookahead with
  | none =>
    have hlt : r < names.length := (List.getElem?_eq_some_iff.1 hname).1
    have := h.lookahead r hlt fun hmem => by
      rw [← Nat.zero_add r] at hmem
      simp [lookahead_mem_slotsFrom hmem] at hflag
    rw [hrule, Option.map_some, Option.some.injEq] at this
    rw [this]
    exact .none
  | some x =>
    obtain ⟨l, hl, hexact, hR'⟩ := hgiven.lookahead x rfl
    rw [hrule, Option.map_some, Option.some.injEq] at hl
    rw [hl]
    exact .some ⟨hexact, hR'⟩

section finish

variable {α : Type} {m : StateM Draft α} {made : α → List Place} {Q : α → Grammar → Prop}
  {names : List String} {root : RuleId}

/-- What a finished draft is a grammar of. -/
theorem Fills.of_finish (h : Fills c T .nothing m made Q) (hd : Blank names d)
    (hc : c.declared = names.length) (hfinish : (m d).2.finish root = .ok g) :
    Completes c T names g ∧ g.root = root ∧ Q (m d).1 g := by
  have out := h d (hd.orderly hc) (by simp)
  obtain ⟨hg, hroot, hexprs, hrules⟩ := finish_eq_ok.1 hfinish
  have becomes : Becomes T d (m d).2 g := by
    refine ⟨by rw [hexprs], fun r _ _ => by rw [hrules, Array.getElem?_map], fun s _ => ?_⟩
    rw [hrules]
    exact .refl _ s
  have size : (m d).2.rules.size = g.rules.size := by simp [hrules]
  have declared (r : Nat) : d.rules[r]? = names[r]?.map fun name => ⟨name, none, none⟩ := by
    rw [← Array.getElem?_toList, hd.rules, List.getElem?_map]
  refine ⟨⟨hg, ?_, ?_, ?_, ?_, ?_⟩, hroot, out.spec g hg becomes trivial⟩
  · rw [← size, ← hd.size]
    exact out.grows.size_le
  · intro r name hr
    have hlt : r < d.rules.size := hd.size ▸ (List.getElem?_eq_some_iff.1 hr).1
    have := out.grows.name r hlt
    rw [declared, hr, hrules, Array.getElem?_map, Option.map_map] at this
    exact this
  · intro r hr hT
    have := out.grows.kept _ hT (hd.size ▸ hr : r < d.rules.size)
    simp only [Slot.Same, declared, hr, getElem?_pos, Option.map_some, hrules, Array.getElem?_map,
      Option.map_map] at this
    exact this.symm
  · rw [← hd.size, ← size]
    exact out.holds g hg becomes trivial
  · intro hnodup
    have hnames : (m d).2.ruleNames = g.rules.toList.map (·.name) := by
      simp [ruleNames, hrules, Rule.draft, Function.comp_def]
    rw [← hnames]
    refine out.orderly.nodup ?_
    rwa [hc, hd.take_ruleNames out.grows]

/-- A declared name is still found as what it was declared as. -/
theorem Fills.find?_eq (h : Fills c T .nothing m made Q) (hd : Blank names d)
    (hc : c.declared = names.length) {name : String} (hname : name ∈ names) :
    (m d).2.names.find? name = names.findIdx? (· == name) := by
  have out := h d (hd.orderly hc) (by simp)
  rw [out.orderly.lists.find, ← List.take_append_drop names.length (m d).2.ruleNames,
    hd.take_ruleNames out.grows, List.findIdx?_append]
  cases hfind : names.findIdx? (· == name) with
  | some i => rfl
  | none =>
    rw [List.findIdx?_eq_none_iff] at hfind
    simpa using hfind name hname

/-- A draft whose declared rules have all been given bodies is a grammar. -/
theorem Fills.finish (h : Fills c T .nothing m made Q) (hd : Blank names d)
    (hc : c.declared = names.length) (checked : c.checked)
    (hbody : ∀ r : Nat, r < names.length → .body r ∈ T) (hroot : root < names.length) :
    ∃ g, (m d).2.finish root = .ok g := by
  have out := h d (hd.orderly hc) (by simp)
  generalize (m d).2 = d' at out
  have filled (r : Nat) (hr : r < d'.rules.size) : ∃ b, d'.body? r = some b := by
    rcases Nat.lt_or_ge r names.length with hlt | hge
    · exact out.grows.filled r (Or.inl (hbody r hlt))
    · exact out.grows.filled r (Or.inr ⟨hd.size ▸ hge, hr⟩)
  have size : names.length ≤ d'.rules.size := hd.size ▸ out.grows.size_le
  let rule (r : DraftRule) : Rule := ⟨r.name, r.body.getD 0, r.lookahead⟩
  have draft_rule : ∀ r ∈ d'.rules, (rule r).draft = r := by
    intro r hr
    obtain ⟨i, hi, rfl⟩ := Array.mem_iff_getElem.1 hr
    obtain ⟨b, hb⟩ := filled i hi
    have hb : d'.rules[i].body = some b := by simpa [body?, hi] using hb
    generalize d'.rules[i] = r at hb
    cases r
    simp_all [rule, Rule.draft]
  refine ⟨⟨d'.rules.map rule, d'.exprs, root⟩, finish_eq_ok.2
    ⟨Grammar.valid_iff.2 ⟨?_, ?_, ?_, ?_, ?_, ?_⟩, rfl, rfl, ?_⟩⟩
  · simpa using hroot.trans_le size
  · intro r hr
    obtain ⟨x, hx, rfl⟩ := Array.mem_map.1 hr
    exact out.orderly.body_lt x hx _ (congrArg DraftRule.body (draft_rule x hx)).symm
  · intro r hr
    obtain ⟨x, hx, rfl⟩ := Array.mem_map.1 hr
    exact out.orderly.lookahead_lt x hx
  · intro e he r hr
    simpa using (out.orderly.fits checked e he).1 r hr
  · exact fun e he => (out.orderly.fits checked e he).2
  · exact fun i hi => out.orderly.child_lt i _ (by simp [hi])
  · conv_lhs => rw [← Array.map_id d'.rules]
    rw [Array.map_map]
    exact Array.map_congr_left fun r hr => (draft_rule r hr).symm

end finish

end Draft
end ConstrainedDecoding
