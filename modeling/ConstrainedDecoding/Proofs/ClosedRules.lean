import ConstrainedDecoding.Proofs.Expansion

/-!
# Closed rules

A rule is closed when all that it refers to has been closed before. So the closed rules can be
numbered in such a way that each refers to smaller numbers alone, and writing the bodies of closed
rules in place of references to them comes to an end. The rounds in which rules are closed stop at
the first one that closes none, and they find every rule that can be closed.
-/
namespace ConstrainedDecoding

open Expansion (closeRule closeRounds isClosed areClosed isShort maxCopies ofTree)

/-! ## Leaves -/

mutual

/-- The leaves of a tree, from left to right. -/
def Tree.leaves : Tree → List Leaf
  | .leaf l => [l]
  | .sequence items | .choice items => Tree.allLeaves items

def Tree.allLeaves : List Tree → List Leaf
  | [] => []
  | t :: ts => t.leaves ++ Tree.allLeaves ts

end

/-- The bounds of a leaf's repetition are small, if it is one. -/
def Leaf.RepeatsFew (l : Leaf) : Prop :=
  ∀ r least most, l = .repetition r least most →
    least.toNat ≤ maxCopies ∧ ∀ m ∈ most, m.toNat ≤ maxCopies

theorem Expansion.isShort_iff {least : UInt32} {most : Option UInt32} :
    isShort least most = true ↔ least.toNat ≤ maxCopies ∧ ∀ m ∈ most, m.toNat ≤ maxCopies := by
  have toNat_max (a b : UInt32) :
      (max a b).toNat ≤ maxCopies ↔ b.toNat ≤ maxCopies ∧ a.toNat ≤ maxCopies := by
    change (if a ≤ b then b else a).toNat ≤ maxCopies ↔ _
    split <;> rename_i h <;> rw [UInt32.le_iff_toNat_le] at h <;> omega
  cases most <;> simp [isShort, toNat_max]

mutual

theorem Tree.uses_iff_leaf {r : RuleId} : ∀ t : Tree, t.Uses r ↔ ∃ l ∈ t.leaves, l.rule? = some r
  | .leaf l => by simp [Tree.Uses, Tree.leaves]
  | .sequence ts => by simpa only [Tree.Uses, Tree.leaves] using Tree.usesSome_iff_leaf ts
  | .choice ts => by simpa only [Tree.Uses, Tree.leaves] using Tree.usesSome_iff_leaf ts

theorem Tree.usesSome_iff_leaf {r : RuleId} :
    ∀ ts : List Tree, Tree.UsesSome r ts ↔ ∃ l ∈ Tree.allLeaves ts, l.rule? = some r
  | [] => by simp [Tree.UsesSome, Tree.allLeaves]
  | t :: ts => by
    simp only [Tree.UsesSome, Tree.allLeaves, List.mem_append, or_and_right, exists_or,
      t.uses_iff_leaf, Tree.usesSome_iff_leaf ts]

end

namespace Expansion

/-- A rule is among the closed ones. -/
def Closes (closed : Array (Option Expansion)) (r : RuleId) : Prop :=
  (closed.getD r none).isSome = true

instance (closed : Array (Option Expansion)) (r : RuleId) : Decidable (Closes closed r) :=
  inferInstanceAs (Decidable ((closed.getD r none).isSome = true))

variable {closed closed' : Array (Option Expansion)} {r s : RuleId} {t : Tree}

/-- A leaf refers to closed rules alone and repeats them a few times. -/
def LeafCloses (closed : Array (Option Expansion)) (l : Leaf) : Prop :=
  (∀ s ∈ l.rule?, Closes closed s) ∧ l.RepeatsFew

mutual

theorem isClosed_iff_leaf :
    ∀ t : Tree, isClosed closed t = true ↔ ∀ l ∈ t.leaves, LeafCloses closed l
  | .leaf (.reference r) => by
    simp [isClosed, Tree.leaves, LeafCloses, Leaf.rule?, Leaf.RepeatsFew, Closes]
  | .leaf (.repetition r least most) => by
    simp [isClosed, isShort_iff, Tree.leaves, LeafCloses, Leaf.rule?, Leaf.RepeatsFew, Closes]
  | .leaf .empty => by simp [isClosed, Tree.leaves, LeafCloses, Leaf.rule?, Leaf.RepeatsFew]
  | .leaf (.literal _) => by simp [isClosed, Tree.leaves, LeafCloses, Leaf.rule?, Leaf.RepeatsFew]
  | .leaf (.charClass _) => by simp [isClosed, Tree.leaves, LeafCloses, Leaf.rule?, Leaf.RepeatsFew]
  | .leaf (.charClassStar _) => by
    simp [isClosed, Tree.leaves, LeafCloses, Leaf.rule?, Leaf.RepeatsFew]
  | .sequence ts => by simpa only [isClosed, Tree.leaves] using areClosed_iff_leaf ts
  | .choice ts => by simpa only [isClosed, Tree.leaves] using areClosed_iff_leaf ts

theorem areClosed_iff_leaf :
    ∀ ts : List Tree, areClosed closed ts = true ↔ ∀ l ∈ Tree.allLeaves ts, LeafCloses closed l
  | [] => by simp [areClosed, Tree.allLeaves]
  | t :: ts => by
    simp only [areClosed, Bool.and_eq_true, isClosed_iff_leaf t, areClosed_iff_leaf ts,
      Tree.allLeaves, List.forall_mem_append]

end

/-! ## Closing one more rule -/

/-- A rule is closed for the first time. -/
structure Closing (rules : Array (Rule × Tree)) (closed : Array (Option Expansion)) (r : RuleId)
    (closed' : Array (Option Expansion)) : Prop where
  fresh : ¬ Closes closed r
  body : ∃ rule t, rules[r]? = some (rule, t) ∧ rule.lookahead = none ∧
    ∀ l ∈ t.leaves, LeafCloses closed l
  closes_iff : ∀ c, Closes closed' c ↔ c = r ∨ Closes closed c
  count : count closed' = count closed + 1
  size : closed'.size = closed.size

private theorem count_set (hr : r < closed.size) (hnone : closed.getD r none = none)
    (e : Expansion) : count (closed.setIfInBounds r (some e)) = count closed + 1 := by
  have hlt : r < closed.toList.length := by simpa using hr
  have hget : closed.toList[r] = none := by
    simpa [Array.getD_eq_getD_getElem?, hr] using hnone
  simp only [count, ← Array.countP_toList, Array.toList_setIfInBounds]
  rw [List.countP_set hlt, hget]
  simp

/-- A rule that can be closed and was not is closed. -/
theorem closing_closeRule {rules : Array (Rule × Tree)} (hsize : closed.size = rules.size)
    {rule : Rule} (hr : rules[r]? = some (rule, t)) (free : rule.lookahead = none)
    (hnot : ¬ Closes closed r) (hleaves : ∀ l ∈ t.leaves, LeafCloses closed l) :
    Closing rules closed r (closeRule rules closed r) := by
  have hnone : closed.getD r none = none := by simpa [Closes] using hnot
  have hlt : r < closed.size := hsize ▸ (Array.getElem?_eq_some_iff.1 hr).1
  have run : closeRule rules closed r = closed.setIfInBounds r (some (ofTree closed t)) := by
    simp [closeRule, hr, free, hnone, (isClosed_iff_leaf t).2 hleaves]
  rw [run]
  refine ⟨hnot, ⟨rule, t, hr, free, hleaves⟩, fun c => ?_, count_set hlt hnone _, by simp⟩
  by_cases hc : c = r
  · subst hc
    simp [Closes, Array.getD_eq_getD_getElem?, hlt]
  · simp [Closes, Array.getD_eq_getD_getElem?, hc, Ne.symm hc]

/-- A turn closes a rule, or changes nothing. -/
theorem closeRule_cases {rules : Array (Rule × Tree)} (hsize : closed.size = rules.size)
    (r : RuleId) :
    Closing rules closed r (closeRule rules closed r) ∨ closeRule rules closed r = closed := by
  cases hr : rules[r]? with
  | none => exact Or.inr (by simp [closeRule, hr])
  | some body =>
    obtain ⟨rule, t⟩ := body
    by_cases h : rule.lookahead = none ∧ ¬ Closes closed r ∧ isClosed closed t = true
    · exact Or.inl (closing_closeRule hsize hr h.1 h.2.1 ((isClosed_iff_leaf t).1 h.2.2))
    · right
      unfold closeRule
      rw [hr]
      refine if_neg fun hcond => h ?_
      simp only [Bool.and_eq_true, Option.isNone_iff_eq_none] at hcond
      exact ⟨hcond.1.1, by simp [Closes, hcond.1.2], hcond.2⟩

/-! ## Numbers of closed rules -/

/-- The closed rules have numbers, each below how many they are, and a closed rule has no lookahead,
repeats rules a few times, and refers to closed rules with smaller numbers alone. -/
structure Ranked (g : Grammar) (closed : Array (Option Expansion)) (rank : RuleId → Nat) : Prop where
  size : closed.size = g.rules.size
  rank_lt : ∀ r, Closes closed r → rank r < count closed
  body : ∀ r, Closes closed r → ∃ rule, g.rules[r]? = some rule ∧ rule.lookahead = none ∧
    ∀ l ∈ (g.tree rule.body).leaves, l.RepeatsFew ∧ ∀ s ∈ l.rule?, Closes closed s ∧ rank s < rank r

variable {g : Grammar} {rank : RuleId → Nat}

theorem ruleTrees_eq_some {rule : Rule} (h : g.ruleTrees[r]? = some (rule, t)) :
    g.rules[r]? = some rule ∧ t = g.tree rule.body := by
  simp only [Grammar.ruleTrees, Array.getElem?_map, Option.map_eq_some_iff, Prod.mk.injEq] at h
  obtain ⟨rule', hr, rfl, rfl⟩ := h
  exact ⟨hr, rfl⟩

theorem size_ruleTrees (g : Grammar) : g.ruleTrees.size = g.rules.size := by
  simp [Grammar.ruleTrees]

/-- The rule that is closed gets the next number. -/
theorem Ranked.closing (h : Ranked g closed rank) (hc : Closing g.ruleTrees closed r closed') :
    Ranked g closed' (Function.update rank r (count closed)) where
  size := hc.size.trans h.size
  rank_lt c hcloses := by
    rw [hc.count]
    rcases (hc.closes_iff c).1 hcloses with rfl | hcloses
    · simp
    · have hne : c ≠ r := fun heq => hc.fresh (heq ▸ hcloses)
      rw [Function.update_of_ne hne]
      exact (h.rank_lt c hcloses).trans (Nat.lt_succ_self _)
  body c hcloses := by
    have old {s : RuleId} (hs : Closes closed s) :
        Closes closed' s ∧ Function.update rank r (count closed) s = rank s :=
      ⟨(hc.closes_iff s).2 (Or.inr hs),
        Function.update_of_ne (fun heq : s = r => hc.fresh (heq ▸ hs)) _ _⟩
    rcases (hc.closes_iff c).1 hcloses with rfl | hcloses
    · obtain ⟨rule, t, htree, free, hleaves⟩ := hc.body
      obtain ⟨hr, rfl⟩ := ruleTrees_eq_some htree
      refine ⟨rule, hr, free, fun l hl => ⟨(hleaves l hl).2, fun s hs => ?_⟩⟩
      have hs := (hleaves l hl).1 s hs
      rw [(old hs).2, Function.update_self]
      exact ⟨(old hs).1, h.rank_lt s hs⟩
    · obtain ⟨rule, hr, free, hleaves⟩ := h.body c hcloses
      refine ⟨rule, hr, free, fun l hl => ⟨(hleaves l hl).1, fun s hs => ?_⟩⟩
      obtain ⟨hs, hlt⟩ := (hleaves l hl).2 s hs
      rw [(old hs).2, (old hcloses).2]
      exact ⟨(old hs).1, hlt⟩

/-! ## Rounds -/

/-- One round: each rule has its turn. -/
def closeRound (rules : Array (Rule × Tree)) (closed : Array (Option Expansion)) :
    Array (Option Expansion) :=
  (List.range rules.size).foldl (closeRule rules) closed

theorem exists_ranked_closeRound (h : Ranked g closed rank) :
    ∃ rank', Ranked g (closeRound g.ruleTrees closed) rank' := by
  refine List.foldlRecOn (motive := fun closed => ∃ rank, Ranked g closed rank) _ _ ⟨rank, h⟩ ?_
  rintro closed ⟨rank, h⟩ r -
  rcases closeRule_cases (h.size.trans (size_ruleTrees g).symm) r with hc | hc
  · exact ⟨_, h.closing hc⟩
  · rw [hc]
    exact ⟨rank, h⟩

/-- Turns close a rule, or none of them changes anything. -/
private theorem foldl_closeRule_cases {rules : Array (Rule × Tree)} (rs : List RuleId) :
    ∀ {closed : Array (Option Expansion)}, closed.size = rules.size →
      (rs.foldl (closeRule rules) closed).size = closed.size ∧
      (count closed < count (rs.foldl (closeRule rules) closed) ∨
        rs.foldl (closeRule rules) closed = closed ∧ ∀ r ∈ rs, closeRule rules closed r = closed) := by
  induction rs with
  | nil => simp
  | cons r rs ih =>
    intro closed hsize
    rw [List.foldl_cons]
    rcases closeRule_cases hsize r with hc | hc
    · obtain ⟨size, grows⟩ := ih (hc.size.trans hsize)
      refine ⟨size.trans hc.size, Or.inl ?_⟩
      have := hc.count
      rcases grows with grows | ⟨same, -⟩
      · omega
      · rw [same]
        omega
    · rw [hc]
      obtain ⟨size, grows | ⟨same, turns⟩⟩ := ih hsize
      · exact ⟨size, Or.inl grows⟩
      · exact ⟨size, Or.inr ⟨same, List.forall_mem_cons.2 ⟨hc, turns⟩⟩⟩

/-- A round closes a rule, or no rule is left that can be closed. -/
theorem closeRound_cases (hsize : closed.size = g.rules.size) :
    (closeRound g.ruleTrees closed).size = g.rules.size ∧
    (count closed < count (closeRound g.ruleTrees closed) ∨
      closeRound g.ruleTrees closed = closed ∧ ∀ r rule, g.rules[r]? = some rule →
        rule.lookahead = none → (∀ l ∈ (g.tree rule.body).leaves, LeafCloses closed l) →
          Closes closed r) := by
  have hsize' := hsize.trans (size_ruleTrees g).symm
  obtain ⟨size, grows | ⟨same, turns⟩⟩ :=
    foldl_closeRule_cases (List.range g.ruleTrees.size) hsize'
  · exact ⟨size.trans hsize, Or.inl grows⟩
  · refine ⟨size.trans hsize, Or.inr ⟨same, fun r rule hr free hleaves => ?_⟩⟩
    by_contra hnot
    have hr' : g.ruleTrees[r]? = some (rule, g.tree rule.body) := by
      simp [Grammar.ruleTrees, hr, Grammar.tree]
    have hcount := (closing_closeRule hsize' hr' free hnot hleaves).count
    rw [turns r (List.mem_range.2 (Array.getElem?_eq_some_iff.1 hr').1)] at hcount
    omega

/-- Rounds go on as long as they close rules, or until there have been `rounds` of them. -/
private theorem closeRounds_eq (rounds : Nat) : ∀ closed : Array (Option Expansion),
    closed.size = g.rules.size → ∃ k ≤ rounds,
      (∀ i < k, count ((closeRound g.ruleTrees)^[i] closed) <
        count ((closeRound g.ruleTrees)^[i + 1] closed)) ∧
      closeRounds g.ruleTrees rounds closed = (closeRound g.ruleTrees)^[k] closed ∧
      (k < rounds → (closeRound g.ruleTrees)^[k + 1] closed = (closeRound g.ruleTrees)^[k] closed) := by
  induction rounds with
  | zero => exact fun _ _ => ⟨0, le_rfl, by simp, rfl, by simp⟩
  | succ rounds ih =>
    intro closed hsize
    have run : closeRounds g.ruleTrees (rounds + 1) closed =
        if count (closeRound g.ruleTrees closed) = count closed then closed
        else closeRounds g.ruleTrees rounds (closeRound g.ruleTrees closed) := rfl
    obtain ⟨size, grows | ⟨same, -⟩⟩ := closeRound_cases hsize
    · obtain ⟨k, hk, hgrows, hrun, hend⟩ := ih _ size
      refine ⟨k + 1, by omega, fun i hi => ?_, ?_, fun hlt => ?_⟩
      · cases i with
        | zero => exact grows
        | succ i => simpa only [Function.iterate_succ_apply] using hgrows i (by omega)
      · rw [run, if_neg grows.ne', hrun, Function.iterate_succ_apply]
      · simpa only [Function.iterate_succ_apply] using hend (by omega)
    · refine ⟨0, by omega, by simp, ?_, fun _ => same⟩
      rw [run, if_pos (congrArg count same), Function.iterate_zero_apply]

end Expansion

namespace Grammar

open Expansion (Closes LeafCloses Ranked count closeRound)

/-- What is closed after some rounds. -/
def closedAfter (g : Grammar) (rounds : Nat) : Array (Option Expansion) :=
  (closeRound g.ruleTrees)^[rounds] (Array.replicate g.rules.size none)

theorem exists_ranked_closedAfter (g : Grammar) (rounds : Nat) :
    ∃ rank, Ranked g (g.closedAfter rounds) rank := by
  induction rounds with
  | zero =>
    have none (r : RuleId) : ¬ Closes (g.closedAfter 0) r := by
      by_cases hr : r < g.rules.size <;>
        simp [Closes, closedAfter, Array.getD_eq_getD_getElem?, hr]
    exact ⟨fun _ => 0, by simp [closedAfter], fun r h => absurd h (none r),
      fun r h => absurd h (none r)⟩
  | succ rounds ih =>
    obtain ⟨rank, h⟩ := ih
    rw [closedAfter, Function.iterate_succ_apply']
    exact Expansion.exists_ranked_closeRound h

theorem size_closedAfter (g : Grammar) (rounds : Nat) :
    (g.closedAfter rounds).size = g.rules.size :=
  (g.exists_ranked_closedAfter rounds).choose_spec.size

/-- As many rules are closed as there have been rounds, if each of them closed one. -/
private theorem le_count_closedAfter {g : Grammar} {k : Nat}
    (h : ∀ i < k, count (g.closedAfter i) < count (g.closedAfter (i + 1))) :
    k ≤ count (g.closedAfter k) := by
  induction k with
  | zero => exact Nat.zero_le _
  | succ k ih =>
    have := ih fun i hi => h i (by omega)
    have := h k (Nat.lt_succ_self k)
    omega

/-- The rounds stop at the first one that closes no rule, and this is no later than there are
rules. -/
theorem closedRules_spec (g : Grammar) : ∃ k ≤ g.rules.size,
    (∀ i < k, count (g.closedAfter i) < count (g.closedAfter (i + 1))) ∧
    g.closedAfter (k + 1) = g.closedAfter k ∧ g.closedRules = g.closedAfter k := by
  obtain ⟨k, hk, hgrows, hrun, hend⟩ := Expansion.closeRounds_eq (g := g) g.rules.size
    (Array.replicate g.rules.size none) (by simp)
  refine ⟨k, hk, hgrows, ?_, hrun⟩
  rcases hk.lt_or_eq with hlt | rfl
  · exact hend hlt
  · -- all rules are closed by now
    have full : g.rules.size ≤ count (g.closedAfter g.rules.size) := le_count_closedAfter hgrows
    obtain ⟨size, grows | ⟨same, -⟩⟩ := Expansion.closeRound_cases (g.size_closedAfter g.rules.size)
    · have all : count (closeRound g.ruleTrees (g.closedAfter g.rules.size)) ≤
          (closeRound g.ruleTrees (g.closedAfter g.rules.size)).size := Array.countP_le_size
      rw [size] at all
      exact absurd (grows.trans_le all) (not_lt.2 full)
    · rw [closedAfter, Function.iterate_succ_apply']
      exact same

/-! ## Rules that can be closed -/

/-- A rule can be put in place of references to it: it has no lookahead, repeats rules a few times, and
refers to such rules alone. As only finitely many steps show this, no such rule refers to itself. -/
inductive Closable (g : Grammar) : RuleId → Prop
  | intro {r : RuleId} {rule : Rule} (hr : g.rules[r]? = some rule) (free : rule.lookahead = none)
      (few : ∀ l ∈ (g.tree rule.body).leaves, l.RepeatsFew)
      (uses : ∀ s, (g.tree rule.body).Uses s → Closable g s) : Closable g r

theorem closable_of_ranked {g : Grammar} {closed : Array (Option Expansion)} {rank : RuleId → Nat}
    (h : Ranked g closed rank) (r : RuleId) : Closes closed r → g.Closable r := by
  induction hn : rank r using Nat.strong_induction_on generalizing r with
  | _ n ih =>
    subst hn
    intro hcloses
    obtain ⟨rule, hr, free, hleaves⟩ := h.body r hcloses
    refine .intro hr free (fun l hl => (hleaves l hl).1) fun s hs => ?_
    obtain ⟨l, hl, hs⟩ := (Tree.uses_iff_leaf _).1 hs
    obtain ⟨hcloses, hlt⟩ := (hleaves l hl).2 s hs
    exact ih _ hlt s rfl hcloses

/-- The rounds close just the rules that can be closed. -/
theorem closes_iff_closable (g : Grammar) (r : RuleId) : Closes g.closedRules r ↔ g.Closable r := by
  obtain ⟨k, -, -, hend, hrun⟩ := g.closedRules_spec
  rw [hrun]
  obtain ⟨rank, hranked⟩ := g.exists_ranked_closedAfter k
  refine ⟨closable_of_ranked hranked r, fun h => ?_⟩
  rw [closedAfter, Function.iterate_succ_apply'] at hend
  obtain ⟨-, grows | ⟨-, full⟩⟩ := Expansion.closeRound_cases (g.size_closedAfter k)
  · exact absurd (congrArg count hend) grows.ne'
  · induction h with
    | @intro r rule hr free few _ ih =>
      exact full r rule hr free fun l hl =>
        ⟨fun s hs => ih s ((Tree.uses_iff_leaf _).2 ⟨l, hl, hs⟩), few l hl⟩

/-! ## Writing out references -/

/-- What is wired when a tree is: its parts, and the bodies of closed rules in place of references
to them and of few repetitions of them. -/
inductive Unfolds (g : Grammar) : Tree → Tree → Prop
  | item {ts : List Tree} {t : Tree} (h : t ∈ ts) : Unfolds g (.sequence ts) t
  | alternative {ts : List Tree} {t : Tree} (h : t ∈ ts) : Unfolds g (.choice ts) t
  | reference {r : RuleId} {t : Tree} (hr : Closes g.closedRules r) (ht : g.body r = some t) :
      Unfolds g (.leaf (.reference r)) t
  | repetition {r : RuleId} {least : UInt32} {most : Option UInt32} {t : Tree}
      (hr : Closes g.closedRules r) (short : Expansion.isShort least most = true)
      (ht : g.body r = some t) : Unfolds g (.leaf (.repetition r least most)) t

section

variable {g : Grammar}

mutual

/-- Unfolding a tree ends if unfolding the bodies of the closed rules that it refers to does. -/
private theorem acc_tree : ∀ t : Tree, (∀ r, t.Uses r → Closes g.closedRules r → ∀ u,
    g.body r = some u → Acc (fun u t => g.Unfolds t u) u) → Acc (fun u t => g.Unfolds t u) t
  | .leaf l, h => by
    refine ⟨_, fun u hu => ?_⟩
    cases hu with
    | reference hr ht => exact h _ (by simp [Tree.Uses, Leaf.rule?]) hr u ht
    | repetition hr _ ht => exact h _ (by simp [Tree.Uses, Leaf.rule?]) hr u ht
  | .sequence ts, h => by
    refine ⟨_, fun u hu => ?_⟩
    cases hu with
    | item hu => exact acc_trees ts (by simpa only [Tree.Uses] using h) u hu
  | .choice ts, h => by
    refine ⟨_, fun u hu => ?_⟩
    cases hu with
    | alternative hu => exact acc_trees ts (by simpa only [Tree.Uses] using h) u hu

private theorem acc_trees : ∀ ts : List Tree, (∀ r, Tree.UsesSome r ts → Closes g.closedRules r →
    ∀ u, g.body r = some u → Acc (fun u t => g.Unfolds t u) u) →
      ∀ t ∈ ts, Acc (fun u t => g.Unfolds t u) t
  | [], _ => by simp
  | t :: ts, h => by
    simp only [Tree.UsesSome] at h
    exact List.forall_mem_cons.2 ⟨acc_tree t fun r hr => h r (Or.inl hr),
      acc_trees ts fun r hr => h r (Or.inr hr)⟩

end

end

/-- Unfolding a tree comes to an end. -/
theorem unfolds_wellFounded (g : Grammar) : WellFounded fun u t => g.Unfolds t u := by
  have bodies (r : RuleId) (h : g.Closable r) : ∀ u, g.body r = some u →
      Acc (fun u t => g.Unfolds t u) u := by
    induction h with
    | @intro r rule hr _ _ _ ih =>
      intro u hu
      obtain rfl : g.tree rule.body = u := by simpa [body, hr] using hu
      exact acc_tree _ fun s hs _ => ih s hs
  exact ⟨fun t => acc_tree t fun r _ hr => bodies r ((g.closes_iff_closable r).1 hr)⟩

/-- The expansion of a reference to a closed rule is the expansion of the body of the rule. -/
theorem ofTree_reference {g : Grammar} {r : RuleId} {t : Tree} (hr : Closes g.closedRules r)
    (ht : g.body r = some t) : ofTree g.closedRules (.leaf (.reference r)) = ofTree g.closedRules t ∧
      ∀ least most, isShort least most = true →
        ofTree g.closedRules (.leaf (.repetition r least most)) =
          .repetition (ofTree g.closedRules t) least.toNat (most.map UInt32.toNat) := by
  obtain ⟨x, hx⟩ := Option.isSome_iff_exists.1 hr
  obtain ⟨u, hu, -, rfl⟩ := (Expansion.settled_closedRules g).body r x hx
  obtain rfl := Option.some.inj (ht.symm.trans hu)
  refine ⟨?_, fun least most short => ?_⟩
  · rw [ofTree, Expansion.ofLeaf, hx, Option.getD_some]
  · rw [ofTree, Expansion.ofLeaf, hx, if_pos short, Option.getD_some]

/-- Rules are closed in rounds, of which there are no more than rules, and the rounds stop at the first
one that closes no rule. The closed rules are those that can be closed. They can be numbered so that
each has no lookahead, repeats rules at most 32 times, and refers to closed rules with smaller numbers
alone. So unfolding a tree, that is, going on to its parts and to the bodies of the closed rules that
stand in it, comes to an end, and expansions have the expansions of these bodies in place of
references. -/
theorem closedRules_well_founded (g : Grammar) :
    (∃ k ≤ g.rules.size, (∀ i < k, count (g.closedAfter i) < count (g.closedAfter (i + 1))) ∧
      g.closedAfter (k + 1) = g.closedAfter k ∧ g.closedRules = g.closedAfter k) ∧
    (∀ r, Closes g.closedRules r ↔ g.Closable r) ∧
    (∃ rank : RuleId → Nat, ∀ r, Closes g.closedRules r → ∃ rule, g.rules[r]? = some rule ∧
      rule.lookahead = none ∧ ∀ l ∈ (g.tree rule.body).leaves,
        l.RepeatsFew ∧ ∀ s ∈ l.rule?, Closes g.closedRules s ∧ rank s < rank r) ∧
    (WellFounded fun u t => g.Unfolds t u) ∧
    ∀ r t, Closes g.closedRules r → g.body r = some t →
      ofTree g.closedRules (.leaf (.reference r)) = ofTree g.closedRules t ∧
      ∀ least most, isShort least most = true →
        ofTree g.closedRules (.leaf (.repetition r least most)) =
          .repetition (ofTree g.closedRules t) least.toNat (most.map UInt32.toNat) := by
  refine ⟨g.closedRules_spec, g.closes_iff_closable, ?_, g.unfolds_wellFounded,
    fun r t => ofTree_reference⟩
  obtain ⟨k, -, -, -, hrun⟩ := g.closedRules_spec
  obtain ⟨rank, hranked⟩ := g.exists_ranked_closedAfter k
  rw [hrun]
  exact ⟨rank, hranked.body⟩

/-- `root ::= "" | a root` and `a ::= "x"`. -/
def runsOfX : Grammar where
  rules := #[⟨"root", 4, none⟩, ⟨"a", 5, none⟩]
  exprs := #[.leaf .empty, .leaf (.reference 1), .leaf (.reference 0), .sequence [1, 2], .choice [0, 3],
    .leaf (.literal [120])]
  root := 0

/-- The rule `a` is closed and stands for `x`; the root, which refers to itself, is not. -/
theorem closes_runsOfX : Closes runsOfX.closedRules 1 ∧ ¬ Closes runsOfX.closedRules 0 ∧
    ofTree runsOfX.closedRules (.leaf (.reference 1)) = ofTree runsOfX.closedRules (.leaf (.literal [120])) := by
  have closes : Closes runsOfX.closedRules 1 := by decide +kernel
  obtain ⟨-, -, -, -, stands⟩ := closedRules_well_founded runsOfX
  exact ⟨closes, by decide +kernel, (stands 1 _ closes rfl).1⟩

end Grammar

end ConstrainedDecoding
