import ConstrainedDecoding.Grammar.Reduced
import ConstrainedDecoding.Proofs.Drafts

/-!
# Copies of grammars

A copied tree has leaves or bodies of rules in place of its references, and renamed rules in its
repetitions. So it describes what the tree does once each reference is read as what was put in its
place, and kept rules describe in a copy what they did before, as long as they are closed under uses.
-/
namespace ConstrainedDecoding

/-! ## Uses -/

mutual

theorem Tree.mem_uses {r : RuleId} : ∀ t : Tree, r ∈ t.uses ↔ t.Uses r
  | .leaf l => by simp [Tree.uses, Tree.Uses, eq_comm]
  | .sequence ts => by simp [Tree.uses, Tree.Uses, Tree.mem_usesOfAll ts]
  | .choice ts => by simp [Tree.uses, Tree.Uses, Tree.mem_usesOfAll ts]

theorem Tree.mem_usesOfAll {r : RuleId} : ∀ ts : List Tree, r ∈ Tree.usesOfAll ts ↔
    Tree.UsesSome r ts
  | [] => by simp [Tree.usesOfAll, Tree.UsesSome]
  | t :: ts => by simp [Tree.usesOfAll, Tree.UsesSome, Tree.mem_uses t, Tree.mem_usesOfAll ts]

end

namespace Grammar

/-- A tree is the body of a rule, or what has to follow it. -/
def Has (g : Grammar) (r : RuleId) (t : Tree) : Prop :=
  ∃ rule, g.rules[r]? = some rule ∧ (t = g.tree rule.body ∨ ∃ l ∈ rule.lookahead, t = g.tree l.expr)

theorem has_body {g : Grammar} {r : RuleId} {rule : Rule} (h : g.rules[r]? = some rule) :
    g.Has r (g.tree rule.body) := ⟨rule, h, Or.inl rfl⟩

theorem has_lookahead {g : Grammar} {r : RuleId} {rule : Rule} {l : Lookahead}
    (h : g.rules[r]? = some rule) (hl : rule.lookahead = some l) : g.Has r (g.tree l.expr) :=
  ⟨rule, h, Or.inr ⟨l, hl, rfl⟩⟩

theorem has_of_body {g : Grammar} {r : RuleId} {t : Tree} (h : g.body r = some t) : g.Has r t := by
  obtain ⟨rule, hrule, rfl⟩ := Option.map_eq_some_iff.1 h
  exact has_body hrule

theorem Has.fits {g : Grammar} {r : RuleId} {t : Tree} (h : g.Has r t) (hg : g.Valid) :
    t.Fits g.rules.size := by
  obtain ⟨rule, -, rfl | ⟨l, -, rfl⟩⟩ := h
  · exact hg.fits _
  · exact hg.fits _

theorem Has.uses_lt {g : Grammar} {r s : RuleId} {t : Tree} (h : g.Has r t) (hg : g.Valid)
    (hs : t.Uses s) : s < g.rules.size := by
  obtain ⟨rule, -, rfl | ⟨l, -, rfl⟩⟩ := h
  · exact hg.uses_lt _ hs
  · exact hg.uses_lt _ hs

end Grammar

/-! ## Substitution -/

mutual

/-- A tree with other trees in place of its references, and renamed repetitions. -/
def Tree.subst (reference : RuleId → Tree) (rename : RuleId → RuleId) : Tree → Tree
  | .leaf (.reference r) => reference r
  | .leaf l => .leaf (l.mapRule rename)
  | .sequence items => .sequence (Tree.substAll reference rename items)
  | .choice items => .choice (Tree.substAll reference rename items)

def Tree.substAll (reference : RuleId → Tree) (rename : RuleId → RuleId) : List Tree → List Tree
  | [] => []
  | t :: ts => t.subst reference rename :: Tree.substAll reference rename ts

end

section subst

variable {reference : RuleId → Tree} {rename : RuleId → RuleId} {L M : Reading}

mutual

/-- A substituted tree describes what the tree does, with references read as what is put in their
place and repeated rules read as the renamed ones. -/
theorem Tree.language_subst (href : ∀ r, (reference r).language L = M r) : ∀ t : Tree,
    (∀ r ∈ t.repeats, L (rename r) = M r) →
      (t.subst reference rename).language L = t.language M
  | .leaf (.reference r), _ => by simp [Tree.subst, href, Leaf.language]
  | .leaf (.repetition r least most), hrep => by
    simp [Tree.subst, Leaf.mapRule, Leaf.language, hrep r (by simp [Tree.repeats])]
  | .leaf .empty, _ => by simp [Tree.subst, Leaf.mapRule, Leaf.language]
  | .leaf (.literal bytes), _ => by simp [Tree.subst, Leaf.mapRule, Leaf.language]
  | .leaf (.charClass set), _ => by simp [Tree.subst, Leaf.mapRule, Leaf.language]
  | .leaf (.charClassStar set), _ => by simp [Tree.subst, Leaf.mapRule, Leaf.language]
  | .sequence ts, hrep => by
    simp only [Tree.subst, Tree.language_sequence]
    exact (Tree.language_substAll href ts (by simpa [Tree.repeats] using hrep)).1
  | .choice ts, hrep => by
    simp only [Tree.subst, Tree.language_choice]
    exact (Tree.language_substAll href ts (by simpa [Tree.repeats] using hrep)).2

theorem Tree.language_substAll (href : ∀ r, (reference r).language L = M r) : ∀ ts : List Tree,
    (∀ r ∈ Tree.repeatsOfAll ts, L (rename r) = M r) →
      Tree.sequenceLanguage L (Tree.substAll reference rename ts) = Tree.sequenceLanguage M ts ∧
      Tree.choiceLanguage L (Tree.substAll reference rename ts) = Tree.choiceLanguage M ts
  | [], _ => by simp [Tree.substAll]
  | t :: ts, hrep => by
    simp only [Tree.repeatsOfAll, List.mem_append] at hrep
    have first := Tree.language_subst href t fun r h => hrep r (Or.inl h)
    have rest := Tree.language_substAll href ts fun r h => hrep r (Or.inr h)
    simp only [Tree.substAll, Tree.sequenceLanguage_cons, Tree.choiceLanguage_cons, first, rest,
      and_self]

end

mutual

/-- A substituted tree uses the renamed rules, if each reference is replaced by one. -/
theorem Tree.uses_subst (href : ∀ r, (reference r).Uses (rename r)) {s : RuleId} : ∀ t : Tree,
    t.Uses s → (t.subst reference rename).Uses (rename s)
  | .leaf l, h => by
    cases l with
    | reference r =>
      obtain rfl : r = s := by simpa [Tree.Uses, Leaf.rule?] using h
      exact href r
    | repetition r least most =>
      obtain rfl : r = s := by simpa [Tree.Uses, Leaf.rule?] using h
      rfl
    | _ => simp [Tree.Uses, Leaf.rule?] at h
  | .sequence ts, h => by
    simp only [Tree.subst, Tree.Uses] at h ⊢
    exact Tree.uses_substAll href ts h
  | .choice ts, h => by
    simp only [Tree.subst, Tree.Uses] at h ⊢
    exact Tree.uses_substAll href ts h

theorem Tree.uses_substAll (href : ∀ r, (reference r).Uses (rename r)) {s : RuleId} :
    ∀ ts : List Tree, Tree.UsesSome s ts →
      Tree.UsesSome (rename s) (Tree.substAll reference rename ts)
  | [], h => h
  | t :: ts, h => h.imp (Tree.uses_subst href t) (Tree.uses_substAll href ts)

end

end subst

namespace Reduced

open Draft (Contract Known Adds Fills)

/-- Nodes fit, and there are no further rules. -/
def contract (n : Nat) : Contract := ⟨n, True, fun _ _ => False, True⟩

section copyTree

variable {n m : Nat} {reference : RuleId → StateM Draft ExprId} {rename : RuleId → RuleId}
  {K : RuleId → Tree}

mutual

/-- A copy is the substituted tree if references are drawn as what is put in their place. -/
theorem adds_copyTree : ∀ (t : Tree), t.Fits m →
    (∀ r, t.Uses r → rename r < n ∧ ∀ known,
      Adds (contract n) known (reference r) (fun e => [.node e]) fun e g => g.tree e = K r) →
    ∀ known, Adds (contract n) known (copyTree reference rename t) (fun e => [.node e])
      fun e g => g.tree e = t.subst K rename
  | .leaf l, ht, href, known => by
    cases l with
    | reference r =>
      unfold copyTree
      exact (href r rfl).2 known
    | repetition r least most =>
      unfold copyTree
      refine (Adds.addLeaf (c := contract n) fun _ => ⟨?_, ?_⟩).imp fun e g _ he => he
      · rintro _ ⟨⟩
        exact (href r rfl).1
      · rintro _ _ _ ⟨⟩
        exact ht.2 _ _ _ rfl
    | _ =>
      unfold copyTree
      refine (Adds.addLeaf (c := contract n) fun _ => ?_).imp fun e g _ he => he
      simp [Leaf.Fits, Leaf.rule?, Leaf.mapRule]
  | .sequence ts, ht, href, known => by
    unfold copyTree
    exact (adds_copyTrees ts ht href known).bind fun es =>
      (Adds.sequence fun e he => by simp [he]).imp fun e g _ he hes => by rw [he, hes, Tree.subst]
  | .choice ts, ht, href, known => by
    unfold copyTree
    exact (adds_copyTrees ts ht href known).bind fun es =>
      (Adds.choice fun e he => by simp [he]).imp fun e g _ he hes => by rw [he, hes, Tree.subst]

theorem adds_copyTrees : ∀ (ts : List Tree), Tree.AllFit m ts →
    (∀ r, Tree.UsesSome r ts → rename r < n ∧ ∀ known,
      Adds (contract n) known (reference r) (fun e => [.node e]) fun e g => g.tree e = K r) →
    ∀ known, Adds (contract n) known (copyTrees reference rename ts) (fun es => es.map .node)
      fun es g => es.map g.tree = Tree.substAll K rename ts
  | [], _, _, known => by
    unfold copyTrees
    exact Adds.pure (by simp +contextual) fun g _ _ => rfl
  | t :: ts, ht, href, known => by
    unfold copyTrees
    exact (adds_copyTree t ht.1 (fun r hr => href r (Or.inl hr)) known).bind fun e =>
      (adds_copyTrees ts ht.2 (fun r hr => href r (Or.inr hr)) _).bind fun es =>
        Adds.pure (by simp +contextual) fun g _ _ hes he => by rw [List.map_cons, hes, he, Tree.substAll]

end

end copyTree

/-! ## Plans -/

namespace Plan

/-- A tree as a plan copies it. -/
def copied (p : Plan) : (depth : Nat) → (inside : List RuleId) → Tree → Tree
  | 0, _ => Tree.subst (fun r => .leaf (.reference (p.rename r))) p.rename
  | depth + 1, inside => Tree.subst (fun r =>
      if p.inlined.getD r false && ! inside.contains r then
        p.copied depth (r :: inside) (p.bodies.getD r default)
      else .leaf (.reference (p.rename r))) p.rename

/-- What references are read as in a copy, given what the rules of the copy describe. -/
def reads (p : Plan) (L : Reading) : (depth : Nat) → (inside : List RuleId) → Reading
  | 0, _, r => L (p.rename r)
  | depth + 1, inside, r =>
    if p.inlined.getD r false && ! inside.contains r then
      (p.bodies.getD r default).language (p.reads L depth (r :: inside))
    else L (p.rename r)

/-- No rule is put in place of its repetitions. -/
def Fit (p : Plan) : Prop :=
  ∀ r, ∀ s ∈ (p.bodies.getD r default).repeats, p.inlined.getD s false = false

theorem reads_of_not_inlined {p : Plan} {r : RuleId} (h : p.inlined.getD r false = false)
    (L : Reading) (depth : Nat) (inside : List RuleId) :
    p.reads L depth inside r = L (p.rename r) := by
  cases depth with
  | zero => rfl
  | succ depth => simp [reads, h]

/-- A copied tree describes what the tree does with references read as the plan says. -/
theorem language_copied {p : Plan} (hp : p.Fit) (L : Reading) (depth : Nat) :
    ∀ (inside : List RuleId) (t : Tree), (∀ s ∈ t.repeats, p.inlined.getD s false = false) →
      (p.copied depth inside t).language L = t.language (p.reads L depth inside) := by
  induction depth with
  | zero =>
    intro inside t ht
    exact Tree.language_subst (fun r => by simp [Leaf.language, reads]) t fun r _ => rfl
  | succ depth ih =>
    intro inside t ht
    refine Tree.language_subst (fun r => ?_) t fun r hr =>
      (reads_of_not_inlined (ht r hr) L _ _).symm
    rw [reads]
    split
    · exact ih (r :: inside) _ (hp r)
    · simp [Leaf.language]

/-- Rules that a plan copies to places below `n`: they are closed under uses. -/
structure Keeps (p : Plan) (g : Grammar) (kept : RuleId → Prop) (n : Nat) : Prop where
  body : ∀ r, kept r → g.body r = some (p.bodies.getD r default)
  rename_lt : ∀ r, kept r → p.rename r < n
  uses : ∀ r, kept r → ∀ t, g.Has r t → ∀ s, t.Uses s → kept s

variable {p : Plan} {g : Grammar} {kept : RuleId → Prop} {n : Nat}

theorem adds_copy (hp : p.Keeps g kept n) (hg : g.Valid) (depth : Nat) :
    ∀ (inside : List RuleId) (t : Tree), t.Fits g.rules.size → (∀ s, t.Uses s → kept s) → ∀ known,
      Adds (contract n) known (p.copy depth inside t) (fun e => [.node e])
        fun e g' => g'.tree e = p.copied depth inside t := by
  have use {r : RuleId} (hr : kept r) (known : Known) :
      Adds (contract n) known (Draft.addLeaf (.reference (p.rename r))) (fun e => [.node e])
        fun e g' => g'.tree e = .leaf (.reference (p.rename r)) := by
    refine Adds.addLeaf fun _ => ⟨?_, by simp⟩
    rintro _ ⟨⟩
    exact hp.rename_lt r hr
  induction depth with
  | zero =>
    intro inside t ht hu
    exact adds_copyTree t ht fun r hr => ⟨hp.rename_lt r (hu r hr), use (hu r hr)⟩
  | succ depth ih =>
    intro inside t ht hu
    refine adds_copyTree t ht fun r hr => ⟨hp.rename_lt r (hu r hr), fun known => ?_⟩
    have body := hp.body r (hu r hr)
    split
    · exact ih (r :: inside) _ (hg.body_fits body)
        (hp.uses r (hu r hr) _ (Grammar.has_of_body body)) known
    · exact use (hu r hr) known

/-- A copy of a rule goes with the rule. -/
def Goes (p : Plan) (r : RuleId) (t u : Tree) : Prop := t = p.copied p.bodies.size [r] u

theorem fills_fill (hp : p.Keeps g kept n) (hg : g.Valid) {r r' : RuleId} {rule : Rule}
    (hr : kept r) (hrule : g.rules[r]? = some rule) (hr' : p.renamed.getD r none = some r')
    (known : Known) :
    Fills (contract n) (Draft.ruleSlots r' rule.lookahead.isSome) known (p.fill g.tree r rule)
      (fun _ => []) fun _ g' =>
        Draft.Given (p.Goes r) g' r' (g.tree rule.body) (rule.follower g.tree) := by
  have body := hp.body r hr
  have hlt : r' < n := by simpa [rename, hr'] using hp.rename_lt r hr
  have tree : p.bodies.getD r default = g.tree rule.body := by
    simpa [Grammar.body, hrule] using body.symm
  have copy {t : Tree} (ht : g.Has r t) (known : Known) :=
    p.adds_copy hp hg p.bodies.size [r] t (ht.fits hg) (hp.uses r hr t ht) known
  unfold fill
  rw [hr', tree]
  cases hl : rule.lookahead with
  | none =>
    rw [Option.isSome_none, Draft.ruleSlots_false]
    exact (copy (Grammar.has_body hrule) known).fill fun b =>
      Fills.bind (Fills.giveBody hlt (by simp)) (fun _ => Adds.pure (by simp +contextual) fun g' _ _ hbody hb =>
        ⟨⟨b, hbody, hb⟩, by simp [Rule.follower, hl]⟩) (Set.union_empty _).symm (by simp)
  | some l =>
    refine (copy (Grammar.has_body hrule) known).fill fun b =>
      Fills.bind (Fills.giveBody hlt (by simp)) (fun _ =>
        (copy (Grammar.has_lookahead hrule hl) _).fill fun e =>
          (Fills.setLookahead hlt (by simp)).imp fun _ g' _ hlook he hbody hb => ?_)
        (Draft.ruleSlots_true r') (by simp)
    refine ⟨⟨b, hbody, hb⟩, fun x hx => ⟨_, hlook, ?_⟩⟩
    obtain rfl : (g.tree l.expr, l.isExact) = x := by simpa [Rule.follower, hl] using hx
    exact ⟨rfl, he⟩

end Plan

/-! ## Copies of grammars -/

/-- The kept ones among rules from number `r` on, with their numbers. -/
def keptFrom (kept : RuleId → Bool) (r : Nat) (rules : List Rule) : List (Rule × RuleId) :=
  (rules.zipIdx r).filter fun x => kept x.2

theorem keptFrom_cons_of_kept {kept : RuleId → Bool} {r : Nat} (rule : Rule) (rules : List Rule)
    (h : kept r = true) : keptFrom kept r (rule :: rules) = (rule, r) :: keptFrom kept (r + 1) rules := by
  simp [keptFrom, h]

theorem keptFrom_cons_of_not_kept {kept : RuleId → Bool} {r : Nat} (rule : Rule) (rules : List Rule)
    (h : kept r = false) : keptFrom kept r (rule :: rules) = keptFrom kept (r + 1) rules := by
  simp [keptFrom, h]

theorem mem_keptFrom {kept : RuleId → Bool} {r : Nat} {rules : List Rule} {rule : Rule} {i : Nat} :
    (rule, i) ∈ keptFrom kept r rules ↔ r ≤ i ∧ rules[i - r]? = some rule ∧ kept i = true := by
  simp [keptFrom, List.mk_mem_zipIdx_iff_le_and_getElem?_sub, and_assoc]

/-- The numbers of kept rules ascend. -/
theorem pairwise_keptFrom (kept : RuleId → Bool) (r : Nat) (rules : List Rule) :
    (keptFrom kept r rules).Pairwise fun x y => x.2 < y.2 := by
  refine List.Pairwise.filter _ (List.pairwise_map.1 ?_)
  rw [List.zipIdx_map_snd]
  exact List.pairwise_lt_range'

/-- New numbers of the rules from number `r` on: the kept ones get the numbers from `start` on. -/
structure Numbers (kept : RuleId → Bool) (start r : Nat) (rules : List Rule)
    (renamed : RuleId → Option RuleId) : Prop where
  numbered : ∀ (k : Nat) (rule : Rule) (i : RuleId), (keptFrom kept r rules)[k]? = some (rule, i) →
    renamed i = some (start + k)
  dropped : ∀ i : Nat, r ≤ i → i < r + rules.length → kept i = false → renamed i = none

theorem Numbers.tail_of_kept {kept : RuleId → Bool} {start r : Nat} {rule : Rule} {rules : List Rule}
    {renamed : RuleId → Option RuleId} (h : Numbers kept start r (rule :: rules) renamed)
    (hr : kept r = true) : renamed r = some start ∧ Numbers kept (start + 1) (r + 1) rules renamed := by
  have hcons := keptFrom_cons_of_kept rule rules hr
  refine ⟨h.numbered 0 rule r (by simp [hcons]), fun k rule' i hk => ?_, fun i hle hlt => ?_⟩
  · rw [show start + 1 + k = start + (k + 1) by omega]
    exact h.numbered (k + 1) rule' i (by simpa [hcons] using hk)
  · exact h.dropped i (by omega) (by simp only [List.length_cons]; omega)

theorem Numbers.tail_of_not_kept {kept : RuleId → Bool} {start r : Nat} {rule : Rule}
    {rules : List Rule} {renamed : RuleId → Option RuleId}
    (h : Numbers kept start r (rule :: rules) renamed) (hr : kept r = false) :
    renamed r = none ∧ Numbers kept start (r + 1) rules renamed := by
  have hcons := keptFrom_cons_of_not_kept rule rules hr
  refine ⟨h.dropped r le_rfl (by simp) hr, fun k rule' i hk => ?_, fun i hle hlt => ?_⟩
  · exact h.numbered k rule' i (by rwa [hcons])
  · exact h.dropped i (by omega) (by simp only [List.length_cons]; omega)

theorem Numbers.congr {kept : RuleId → Bool} {start r : Nat} {rules : List Rule}
    {renamed renamed' : RuleId → Option RuleId} (h : Numbers kept start r rules renamed)
    (heq : ∀ i : Nat, r ≤ i → renamed' i = renamed i) : Numbers kept start r rules renamed' where
  numbered k rule i hi := by
    rw [heq i (mem_keptFrom.1 (List.mem_of_getElem? hi)).1]
    exact h.numbered k rule i hi
  dropped i hle hlt hki := (heq i hle).trans (h.dropped i hle hlt hki)

theorem Numbers.cons_of_kept {kept : RuleId → Bool} {start r : Nat} {rule : Rule} {rules : List Rule}
    {renamed : RuleId → Option RuleId} (h : Numbers kept (start + 1) (r + 1) rules renamed)
    (hr : kept r = true) (hrenamed : renamed r = some start) :
    Numbers kept start r (rule :: rules) renamed where
  numbered k rule' i hi := by
    rw [keptFrom_cons_of_kept _ _ hr] at hi
    cases k with
    | zero =>
      obtain ⟨-, rfl⟩ : rule = rule' ∧ r = i := by simpa using hi
      exact hrenamed
    | succ k =>
      rw [show start + (k + 1) = start + 1 + k by omega]
      exact h.numbered k rule' i (by simpa using hi)
  dropped i hle hlt hki := by
    rcases Nat.lt_or_eq_of_le hle with hgt | rfl
    · exact h.dropped i hgt (by simp only [List.length_cons] at hlt; omega) hki
    · exact absurd (hr.symm.trans hki) Bool.noConfusion

theorem Numbers.cons_of_not_kept {kept : RuleId → Bool} {start r : Nat} {rule : Rule}
    {rules : List Rule} {renamed : RuleId → Option RuleId}
    (h : Numbers kept start (r + 1) rules renamed) (hr : kept r = false) (hrenamed : renamed r = none) :
    Numbers kept start r (rule :: rules) renamed where
  numbered k rule' i hi := by
    rw [keptFrom_cons_of_not_kept _ _ hr] at hi
    exact h.numbered k rule' i hi
  dropped i hle hlt hki := by
    rcases Nat.lt_or_eq_of_le hle with hgt | rfl
    · exact h.dropped i hgt (by simp only [List.length_cons] at hlt; omega) hki
    · exact hrenamed

/-- The kept rules are declared in order, and get the next numbers. -/
theorem declareKept_spec (kept : RuleId → Bool) (rules : List Rule) :
    ∀ {names : List String} (r : Nat) {d : Draft}, Draft.Blank names d →
      Draft.Blank (names ++ (keptFrom kept r rules).map (·.1.name)) (declareKept kept r rules d).2 ∧
      Numbers kept names.length r rules fun i => (declareKept kept r rules d).1.getD (i - r) none := by
  have later {x : Option RuleId} {xs : List (Option RuleId)} {i r : Nat} (h : r + 1 ≤ i) :
      (x :: xs).getD (i - r) none = xs.getD (i - (r + 1)) none := by
    rw [show i - r = i - (r + 1) + 1 by omega, List.getD_cons_succ]
  induction rules with
  | nil =>
    intro names r d h
    rw [keptFrom, List.zipIdx_nil, List.filter_nil, List.map_nil, List.append_nil]
    exact ⟨h, by simp [keptFrom], fun i hle hlt => by simp only [List.length_nil] at hlt; omega⟩
  | cons rule rules ih =>
    intro names r d h
    cases hk : kept r with
    | false =>
      have run : declareKept kept r (rule :: rules) d =
          (none :: (declareKept kept (r + 1) rules d).1, (declareKept kept (r + 1) rules d).2) := by
        simp [declareKept, hk]
        rfl
      obtain ⟨blank, numbers⟩ := ih (r + 1) h
      rw [run, keptFrom_cons_of_not_kept _ _ hk]
      exact ⟨blank, (numbers.congr fun i => later).cons_of_not_kept hk (by simp)⟩
    | true =>
      have run : declareKept kept r (rule :: rules) d =
          (some d.rules.size ::
              (declareKept kept (r + 1) rules (Draft.addRule rule.name d).2).1,
            (declareKept kept (r + 1) rules (Draft.addRule rule.name d).2).2) := by
        simp [declareKept, hk]
        rfl
      obtain ⟨blank, numbers⟩ := ih (r + 1) (h.addRule rule.name)
      rw [List.length_append, List.length_singleton] at numbers
      rw [run, keptFrom_cons_of_kept _ _ hk]
      exact ⟨by simpa using blank, (numbers.congr fun i => later).cons_of_kept hk (by simp [h.size])⟩

/-- A part of a grammar that describes the same: each of its rules comes from one of the grammar,
in the same order. -/
structure IsPart (g' g : Grammar) (origin : RuleId → RuleId) : Prop where
  root : origin g'.root = g.root
  lt : ∀ r : Nat, r < g'.rules.size → origin r < g.rules.size
  ascends : ∀ r s : Nat, r < s → s < g'.rules.size → origin r < origin s
  name : ∀ r : Nat, r < g'.rules.size → g'.ruleName r = g.ruleName (origin r)
  reading : ∀ r : Nat, r < g'.rules.size → g'.reading r = g.reading (origin r)
  following : ∀ r : Nat, r < g'.rules.size → g'.following r = g.following (origin r)

theorem IsPart.refl (g : Grammar) : IsPart g g id :=
  ⟨rfl, fun _ h => h, fun _ _ h _ => h, fun _ _ => rfl, fun _ _ => rfl, fun _ _ => rfl⟩

theorem IsPart.trans {g₁ g₂ g₃ : Grammar} {f h : RuleId → RuleId} (h₁ : IsPart g₂ g₁ f)
    (h₂ : IsPart g₃ g₂ h) : IsPart g₃ g₁ (f ∘ h) where
  root := by rw [Function.comp_apply, h₂.root, h₁.root]
  lt r hr := h₁.lt _ (h₂.lt r hr)
  ascends r s hrs hs := h₁.ascends _ _ (h₂.ascends r s hrs hs) (h₂.lt s hs)
  name r hr := (h₂.name r hr).trans (h₁.name _ (h₂.lt r hr))
  reading r hr := (h₂.reading r hr).trans (h₁.reading _ (h₂.lt r hr))
  following r hr := (h₂.following r hr).trans (h₁.following _ (h₂.lt r hr))

namespace Plan

variable {p : Plan} {g g' : Grammar} {kept : RuleId → Bool} {n : Nat}

theorem fills_fillAll (hp : p.Keeps g (fun r => kept r = true ∧ r < g.rules.size) n) (hg : g.Valid)
    (rules : List Rule) : ∀ (r start : Nat) (known : Known),
      (∀ k, rules[k]? = g.rules[r + k]?) → Numbers kept start r rules (p.renamed.getD · none) →
      Fills (contract n)
        (Draft.slotsFrom start ((keptFrom kept r rules).map (·.1.lookahead.isSome))) known
        (p.fillAll g.tree r rules) (fun _ => []) fun _ g' =>
          ∀ (k : Nat) (rule : Rule) (i : Nat), (keptFrom kept r rules)[k]? = some (rule, i) →
            Draft.Given (p.Goes i) g' (start + k) (g.tree rule.body) (rule.follower g.tree) := by
  induction rules with
  | nil => exact fun _ _ _ _ _ => Adds.pure (by simp +contextual) fun g' _ _ => by simp [keptFrom]
  | cons rule rules ih =>
    intro r start known hrules hnumbers
    have hrule : g.rules[r]? = some rule := (hrules 0).symm
    have hrest (k : Nat) : rules[k]? = g.rules[r + 1 + k]? := by
      rw [show r + 1 + k = r + (k + 1) by omega, ← hrules (k + 1), List.getElem?_cons_succ]
    cases hk : kept r with
    | false =>
      obtain ⟨hr, htail⟩ := hnumbers.tail_of_not_kept hk
      have skip : p.fill g.tree r rule = pure () := by rw [fill, hr]
      rw [keptFrom_cons_of_not_kept _ _ hk, fillAll, skip]
      exact ih _ _ _ hrest htail
    | true =>
      obtain ⟨hr, htail⟩ := hnumbers.tail_of_kept hk
      have hlt : r < g.rules.size := (Array.getElem?_eq_some_iff.1 hrule).1
      rw [keptFrom_cons_of_kept _ _ hk, fillAll]
      refine Fills.bind (p.fills_fill hp hg ⟨hk, hlt⟩ hrule hr known)
        (fun _ => (ih _ _ _ hrest htail).imp fun _ g' _ hlater hfirst k rule' i hi => ?_) rfl
        (Draft.disjoint_slotsFrom start _ _)
      cases k with
      | zero =>
        obtain ⟨rfl, rfl⟩ : rule = rule' ∧ r = i := by simpa using hi
        exact hfirst
      | succ k =>
        rw [show start + (k + 1) = start + 1 + k by omega]
        exact hlater k rule' i (by simpa using hi)

section

variable {kept : RuleId → Prop} {r : RuleId}

private theorem uses_kept (hp : p.Keeps g kept n) (hr : kept r) {s : RuleId}
    (hs : (p.bodies.getD r default).Uses s) : kept s :=
  hp.uses r hr _ (Grammar.has_of_body (hp.body r hr)) s hs

/-- What kept rules describe bounds what is read in their place. -/
private theorem reads_le (hp : p.Keeps g kept n) {M : Reading}
    (hM : ∀ s, kept s → M (p.rename s) ≤ g.reading s) (depth : Nat) :
    ∀ (inside : List RuleId) (s : RuleId), kept s → p.reads M depth inside s ≤ g.reading s := by
  induction depth with
  | zero => exact fun inside s hs => hM s hs
  | succ depth ih =>
    intro inside s hs
    rw [reads]
    split
    · rw [Grammar.reading_of_body (hp.body s hs)]
      exact Tree.language_mono _ fun u hu => ih (s :: inside) u (uses_kept hp hs hu)
    · exact hM s hs

/-- Languages that the bodies of kept rules describe from each other are read in their place, if the
copies describe as much. -/
private theorem le_reads (hp : p.Keeps g kept n) {X M : Reading} (hX : X ≤ g.bodyLanguage X)
    (hle : ∀ s, kept s → X s ≤ M (p.rename s)) (depth : Nat) :
    ∀ (inside : List RuleId) (s : RuleId), kept s → X s ≤ p.reads M depth inside s := by
  induction depth with
  | zero => exact fun inside s hs => hle s hs
  | succ depth ih =>
    intro inside s hs
    rw [reads]
    split
    · refine (hX s).trans ?_
      rw [Grammar.bodyLanguage_some (hp.body s hs)]
      exact Tree.language_mono _ fun u hu => ih (s :: inside) u (uses_kept hp hs hu)
    · exact hle s hs

/-- A grammar holds the copies of the kept rules. -/
def Holds (p : Plan) (kept : RuleId → Prop) (g' : Grammar) : Prop :=
  ∀ r, kept r → ∀ L, g'.bodyLanguage L (p.rename r) =
    (p.bodies.getD r default).language (p.reads L p.bodies.size [r])

/-- What the kept rules that a copy stands for all describe. -/
def shared (p : Plan) (g : Grammar) (kept : RuleId → Prop) : Reading :=
  fun j => {w | ∀ r, kept r → p.rename r = j → w ∈ g.reading r}

private theorem reading_rename_le (hp : p.Keeps g kept n) (hcopy : p.Holds kept g') (hr : kept r) :
    g'.reading (p.rename r) ≤ g.reading r := by
  have hM : ∀ s, kept s → p.shared g kept (p.rename s) ≤ g.reading s := fun s hs w hw => hw s hs rfl
  have le : g'.reading ≤ p.shared g kept := by
    refine Grammar.reading_le fun j t ht w hw s hs hj => ?_
    subst hj
    rw [← Grammar.bodyLanguage_some ht, hcopy s hs] at hw
    rw [Grammar.reading_of_body (hp.body s hs)]
    exact Tree.language_mono _ (fun u hu => reads_le hp hM _ _ u (uses_kept hp hs hu)) hw
  exact (le _).trans (hM r hr)

private theorem le_reading_rename (hp : p.Keeps g kept n) (hcopy : p.Holds kept g') (hr : kept r) :
    g.reading r ≤ g'.reading (p.rename r) := by
  have main := g.reading_induction
    (p := fun X => X ≤ g.bodyLanguage X ∧ ∀ s, kept s → X s ≤ g'.reading (p.rename s)) ?_ ?_
  · exact main.2 r hr
  · rintro X ⟨hX, hle⟩
    refine ⟨g.bodyLanguage_mono hX, fun s hs => ?_⟩
    rw [Grammar.bodyLanguage_some (hp.body s hs), Grammar.reading_eq g', hcopy s hs]
    exact Tree.language_mono _ fun u hu => le_reads hp hX hle _ _ u (uses_kept hp hs hu)
  · intro S hS
    refine ⟨sSup_le fun X hX => ?_, fun s hs => ?_⟩
    · exact (hS X hX).1.trans (g.bodyLanguage_mono (le_sSup hX))
    · rw [sSup_apply]
      exact iSup_le fun X => (hS X X.2).2 s hs

/-- If a grammar holds the copies of the kept rules, they describe in it what they did. -/
theorem reading_rename (hp : p.Keeps g kept n) (hcopy : p.Holds kept g') (hr : kept r) :
    g'.reading (p.rename r) = g.reading r :=
  le_antisymm (reading_rename_le hp hcopy hr) (le_reading_rename hp hcopy hr)

end

/-- A grammar that consists of copies of the kept rules. -/
structure Copied (p : Plan) (kept : RuleId → Bool) (g g' : Grammar) : Prop where
  valid : g'.Valid
  root : g'.root = p.rename g.root
  image : ∀ r' : Nat, r' < g'.rules.size →
    ∃ r : Nat, r < g.rules.size ∧ kept r = true ∧ p.rename r = r'
  rename_lt : ∀ r s : Nat, s < g.rules.size → kept r = true → kept s = true → r < s →
    p.rename r < p.rename s
  keeps : p.Keeps g (fun r => kept r = true ∧ r < g.rules.size) g'.rules.size
  rule : ∀ (r : Nat) (rule : Rule), kept r = true → g.rules[r]? = some rule →
    g'.HasRule (p.Goes r) (p.rename r) rule.name (g.tree rule.body) (rule.follower g.tree)

theorem Copied.reading_rename (h : p.Copied kept g g') (hp : p.Fit) {r : Nat} (hk : kept r = true)
    (hr : r < g.rules.size) : g'.reading (p.rename r) = g.reading r := by
  refine Plan.reading_rename h.keeps (fun r ⟨hk, hr⟩ L => ?_) ⟨hk, hr⟩
  obtain ⟨rule', hrule', -, hbody, -⟩ := h.rule r g.rules[r] hk (by simp [hr])
  have : p.bodies.getD r default = g.tree g.rules[r].body := by
    simpa [Grammar.body, hr] using (h.keeps.body r ⟨hk, hr⟩).symm
  rw [Grammar.bodyLanguage_some (t := g'.tree rule'.body) (by simp [Grammar.body, hrule']), hbody,
    ← this, language_copied hp _ _ _ _ (hp r)]

/-- What a tree of kept rules describes in a copy. -/
theorem Copied.reads_eq (h : p.Copied kept g g') (hp : p.Fit) (depth : Nat) :
    ∀ (inside : List RuleId) (s : Nat), kept s = true → s < g.rules.size →
      p.reads g'.reading depth inside s = g.reading s := by
  induction depth with
  | zero => exact fun inside s hk hs => h.reading_rename hp hk hs
  | succ depth ih =>
    intro inside s hk hs
    rw [reads]
    split
    · have body := h.keeps.body s ⟨hk, hs⟩
      rw [Grammar.reading_of_body body]
      refine Tree.language_congr _ fun u hu => ?_
      obtain ⟨hku, hlt⟩ := h.keeps.uses s ⟨hk, hs⟩ _ (Grammar.has_of_body body) u hu
      exact ih (s :: inside) u hku hlt
    · exact h.reading_rename hp hk hs

/-- Kept rules stay in order. -/
theorem Copied.rename_lt_iff (h : p.Copied kept g g') {r s : Nat} (hr : r < g.rules.size)
    (hs : s < g.rules.size) (hkr : kept r = true) (hks : kept s = true) :
    p.rename r < p.rename s ↔ r < s := by
  refine ⟨fun hlt => Nat.lt_of_not_le fun hle => ?_, h.rename_lt r s hs hkr hks⟩
  rcases Nat.lt_or_eq_of_le hle with hgt | rfl
  · exact Nat.lt_asymm hlt (h.rename_lt s r hr hks hkr hgt)
  · exact Nat.lt_irrefl _ hlt

theorem Copied.rename_inj (h : p.Copied kept g g') {r s : Nat} (hr : r < g.rules.size)
    (hs : s < g.rules.size) (hkr : kept r = true) (hks : kept s = true)
    (heq : p.rename r = p.rename s) : r = s := by
  rcases Nat.lt_trichotomy r s with hlt | heq | hlt
  · exact absurd heq (h.rename_lt r s hs hkr hks hlt).ne
  · exact heq
  · exact absurd heq (h.rename_lt s r hr hks hkr hlt).ne'

/-- What has to follow a copy is what has to follow the rule. -/
private theorem Copied.following_rename (h : p.Copied kept g g') (hp : p.Fit)
    (hrep : ∀ r t, g.Has r t → ∀ s ∈ t.repeats, p.inlined.getD s false = false) {r : Nat}
    (hk : kept r = true) (hr : r < g.rules.size) : g'.following (p.rename r) = g.following r := by
  have hrule : g.rules[r]? = some g.rules[r] := by simp [hr]
  refine (h.rule r _ hk hrule).following_eq hrule fun l hl t ht => ?_
  have has := Grammar.has_lookahead hrule hl
  rw [ht, language_copied hp _ _ _ _ (hrep _ _ has)]
  refine Tree.language_congr _ fun u hu => ?_
  obtain ⟨hku, hlt⟩ := h.keeps.uses _ ⟨hk, hr⟩ _ has u hu
  exact h.reads_eq hp _ _ u hku hlt

/-- Copies of kept rules are a part of the grammar. -/
theorem Copied.exists_isPart (h : p.Copied kept g g') (hp : p.Fit)
    (hrep : ∀ r t, g.Has r t → ∀ s ∈ t.repeats, p.inlined.getD s false = false)
    (hg : g.Valid) (hroot : kept g.root = true) :
    ∃ origin, IsPart g' g origin ∧ ∀ r : Nat, r < g'.rules.size →
      kept (origin r) = true ∧ p.rename (origin r) = r := by
  choose! origin lt hkept hrename using h.image
  refine ⟨origin, ⟨?_, lt, fun r s hrs hs => ?_, fun r hr => ?_, fun r hr => ?_, fun r hr => ?_⟩,
    fun r hr => ⟨hkept r hr, hrename r hr⟩⟩
  · have hlt : g'.root < g'.rules.size := h.valid.root_lt
    exact h.rename_inj (lt _ hlt) hg.root_lt (hkept _ hlt) hroot ((hrename _ hlt).trans h.root)
  · have hr := hrs.trans hs
    rw [← hrename r hr, ← hrename s hs] at hrs
    exact (h.rename_lt_iff (lt r hr) (lt s hs) (hkept r hr) (hkept s hs)).1 hrs
  · have hlt := lt r hr
    obtain ⟨rule', hrule', hname, -⟩ :=
      h.rule (origin r) g.rules[origin r] (hkept r hr) (by simp [hlt])
    rw [hrename r hr] at hrule'
    simp [Grammar.ruleName, hrule', hname, hlt]
  · rw [← h.reading_rename hp (hkept r hr) (lt r hr), hrename r hr]
  · rw [← h.following_rename hp hrep (hkept r hr) (lt r hr), hrename r hr]

end Plan

/-- Kept rules, with their numbers and in their order, are renamed to their places. -/
structure Plan.Places (p : Plan) (kept : RuleId → Bool) (g : Grammar)
    (keeps : List (Rule × RuleId)) : Prop where
  mem : ∀ rule r, (rule, r) ∈ keeps ↔ g.rules[r]? = some rule ∧ kept r = true
  rename : ∀ (k r : Nat) (rule : Rule), keeps[k]? = some (rule, r) → p.rename r = k
  ascends : keeps.Pairwise fun x y => x.2 < y.2

namespace Plan.Places

variable {p : Plan} {kept : RuleId → Bool} {g : Grammar} {keeps : List (Rule × RuleId)}

/-- The numbers that kept rules get are their places. -/
theorem of_numbers (h : Numbers kept 0 0 g.rules.toList (p.renamed.getD · none)) :
    p.Places kept g (keptFrom kept 0 g.rules.toList) where
  mem rule r := by
    rw [mem_keptFrom]
    simp
  rename k r rule hk := by
    have := h.numbered k rule r hk
    simp [Plan.rename, this]
  ascends := pairwise_keptFrom kept 0 g.rules.toList

theorem exists_place (h : p.Places kept g keeps) {r : Nat} (hk : kept r = true)
    (hr : r < g.rules.size) : ∃ k, keeps[k]? = some (g.rules[r], r) ∧ p.rename r = k := by
  obtain ⟨k, hk⟩ := List.mem_iff_getElem?.1 ((h.mem g.rules[r] r).2 ⟨by simp [hr], hk⟩)
  exact ⟨k, hk, h.rename k r _ hk⟩

theorem rename_lt_length (h : p.Places kept g keeps) {r : Nat} (hk : kept r = true)
    (hr : r < g.rules.size) : p.rename r < keeps.length := by
  obtain ⟨k, hk, rfl⟩ := h.exists_place hk hr
  exact (List.getElem?_eq_some_iff.1 hk).1

theorem rename_lt_rename (h : p.Places kept g keeps) {r s : Nat} (hs : s < g.rules.size)
    (hkr : kept r = true) (hks : kept s = true) (hrs : r < s) : p.rename r < p.rename s := by
  obtain ⟨k, hk, rfl⟩ := h.exists_place hkr (hrs.trans hs)
  obtain ⟨l, hl, rfl⟩ := h.exists_place hks hs
  obtain ⟨hklt, hk⟩ := List.getElem?_eq_some_iff.1 hk
  obtain ⟨hllt, hl⟩ := List.getElem?_eq_some_iff.1 hl
  by_contra hle
  rcases Nat.lt_or_eq_of_le (Nat.le_of_not_lt hle) with hlt | heq
  · have := List.pairwise_iff_getElem.1 h.ascends _ _ hllt hklt hlt
    rw [hk, hl] at this
    exact absurd hrs (Nat.lt_asymm this)
  · simp only [heq, hk, Prod.mk.injEq] at hl
    exact absurd hl.2 hrs.ne

theorem exists_of_lt_length (h : p.Places kept g keeps) {k : Nat} (hk : k < keeps.length) :
    ∃ r : Nat, r < g.rules.size ∧ kept r = true ∧ p.rename r = k := by
  obtain ⟨hrule, hkept⟩ := (h.mem _ _).1 (List.getElem_mem hk)
  exact ⟨keeps[k].2, (Array.getElem?_eq_some_iff.1 hrule).1, hkept,
    h.rename k _ _ (List.getElem?_eq_getElem hk)⟩

/-- Kept rules that are closed under uses can be copied. -/
theorem keeps_all (h : p.Places kept g keeps) (hg : g.Valid) (hbodies : p.bodies = Reduced.bodies g g.trees)
    (huses : ∀ r : Nat, kept r = true → ∀ t, g.Has r t → ∀ s, t.Uses s → kept s = true) :
    p.Keeps g (fun r => kept r = true ∧ r < g.rules.size) keeps.length where
  body r hr := by
    simp [Grammar.body, hr.2, hbodies, Reduced.bodies, Grammar.tree]
  rename_lt r hr := h.rename_lt_length hr.1 hr.2
  uses r hr t ht s hs := ⟨huses r hr.1 t ht s hs, ht.uses_lt hg hs⟩

end Plan.Places

/-- The kept rules can be copied, if the root is among them and they are closed under uses. -/
theorem copyGrammar_spec {g : Grammar} (kept : RuleId → Bool) (inlined : Array Bool) (hg : g.Valid)
    (hroot : kept g.root = true)
    (huses : ∀ r : Nat, kept r = true → ∀ t, g.Has r t → ∀ s, t.Uses s → kept s = true) :
    ∃ g' p, copyGrammar g kept inlined = .ok g' ∧ p.inlined = inlined ∧
      p.bodies = bodies g g.trees ∧ Plan.Copied p kept g g' := by
  obtain ⟨blank, numbers⟩ := declareKept_spec kept g.rules.toList 0 Draft.blank_empty
  let p : Plan := ⟨inlined, bodies g g.trees, (declareKept kept 0 g.rules.toList .empty).1.toArray⟩
  have run : copyGrammar g kept inlined = (p.fillAll g.tree 0 g.rules.toList
      (declareKept kept 0 g.rules.toList .empty).2).2.finish (p.rename g.root) := rfl
  have numbers : Numbers kept 0 0 g.rules.toList (p.renamed.getD · none) := by
    simpa [p] using numbers
  have bodies_eq : p.bodies = bodies g g.trees := rfl
  have inlined_eq : p.inlined = inlined := rfl
  generalize (declareKept kept 0 g.rules.toList .empty).2 = d at run blank
  clear_value p
  have places : p.Places kept g (keptFrom kept 0 g.rules.toList) := .of_numbers numbers
  have keepsAll := places.keeps_all hg bodies_eq huses
  have fills := p.fills_fillAll keepsAll hg g.rules.toList 0 0 .nothing (by simp) numbers
  generalize keptFrom kept 0 g.rules.toList = keeps at blank places keepsAll fills
  rw [List.nil_append] at blank
  have size : (contract keeps.length).declared = (keeps.map (·.1.name)).length := by
    simp [contract]
  have hroot' : p.rename g.root < keeps.length := places.rename_lt_length hroot hg.root_lt
  obtain ⟨g', hfinish⟩ := fills.finish blank size trivial
    (fun r hr => Draft.body_mem_slotsFrom (Nat.zero_le r) (by simpa using hr))
    (by simpa using hroot')
  obtain ⟨completes, root_eq, hgiven⟩ := fills.of_finish blank size hfinish
  -- the contract holds of no further rule
  have hsize : g'.rules.size = keeps.length := by
    have hle : keeps.length ≤ g'.rules.size := by simpa using completes.size_le
    refine Nat.le_antisymm (Nat.le_of_not_lt fun hlt => ?_) hle
    exact (completes.holds keeps.length g'.rules[keeps.length] (by simp) hlt (by simp [hlt])).1
  refine ⟨g', p, run.trans hfinish, inlined_eq, bodies_eq, completes.valid, root_eq,
    fun r hr => places.exists_of_lt_length (hsize ▸ hr),
    fun r s hs hkr hks => places.rename_lt_rename hs hkr hks, hsize ▸ keepsAll, ?_⟩
  intro r rule hk hrule
  obtain ⟨hr, rfl⟩ := Array.getElem?_eq_some_iff.1 hrule
  obtain ⟨k, hkeep, rename_eq⟩ := places.exists_place hk hr
  have given := hgiven k _ r hkeep
  rw [Nat.zero_add] at given
  rw [rename_eq]
  exact completes.hasRule (by simp [hkeep]) (by simp [hkeep]) given

end Reduced
end ConstrainedDecoding
