import ConstrainedDecoding.Automaton.Expansion
import ConstrainedDecoding.Proofs.Arena

/-!
# What expansions describe

An expansion allows words of bytes and calls. Reading the calls as the rules gives what the tree
describes, since a closed rule stands for what its own expansion does: all that it refers to was
closed before, and stays as it was. So the words of all expansions, as a network, have the reading
of the grammar.
-/
namespace ConstrainedDecoding

open Computability Letter

namespace Expansion

mutual

/-- The words that an expansion allows. -/
def words : Expansion → Language Letter
  | .empty => 1
  | .literal bytes => {bytes.map byte}
  | .charClass set => ofBytes set.language
  | .charClassStar set => (ofBytes set.language)∗
  | .call r => {[Letter.call r]}
  | .sequence items => sequenceWords items
  | .choice items => choiceWords items
  | .repetition body least most => Language.copies body.words least most

/-- The words that expansions allow one after the other. -/
def sequenceWords : List Expansion → Language Letter
  | [] => 1
  | x :: xs => x.words * sequenceWords xs

/-- The words that some one of several expansions allows. -/
def choiceWords : List Expansion → Language Letter
  | [] => 0
  | x :: xs => x.words + choiceWords xs

end

mutual

/-- An expansion calls rules below `rules` alone, and the bounds of its repetitions are in order. -/
def Fits (rules : Nat) : Expansion → Prop
  | .empty | .literal _ | .charClass _ | .charClassStar _ => True
  | .call r => r < rules
  | .sequence items | .choice items => AllFit rules items
  | .repetition body least most => body.Fits rules ∧ ∀ m ∈ most, least ≤ m

def AllFit (rules : Nat) : List Expansion → Prop
  | [] => True
  | x :: xs => x.Fits rules ∧ AllFit rules xs

end

/-- The expansions of closed rules fit. -/
def ClosedFit (rules : Nat) (closed : Array (Option Expansion)) : Prop :=
  ∀ c e, closed.getD c none = some e → e.Fits rules

theorem fits_ofLeaf {rules : Nat} {closed : Array (Option Expansion)} (h : ClosedFit rules closed)
    {l : Leaf} (hl : l.Fits rules) : (ofLeaf closed l).Fits rules := by
  have call (r : Nat) (hr : r < rules) : ((closed.getD r none).getD (.call r)).Fits rules := by
    cases hc : closed.getD r none with
    | none => exact hr
    | some e => exact h r e hc
  cases l with
  | empty | literal _ | charClass _ | charClassStar _ => simp [ofLeaf, Fits]
  | reference r => exact call r (hl.1 r rfl)
  | repetition r least most =>
    have hr := hl.1 r rfl
    simp only [ofLeaf, Fits]
    refine ⟨?_, fun m hm => ?_⟩
    · split
      · exact call r hr
      · exact hr
    · obtain ⟨m', hm', rfl⟩ := Option.mem_map.1 hm
      obtain rfl := Option.mem_def.1 hm'
      exact hl.2 r least m' rfl

mutual

theorem fits_ofTree {rules : Nat} {closed : Array (Option Expansion)}
    (h : ClosedFit rules closed) : ∀ t : Tree, t.Fits rules → (ofTree closed t).Fits rules
  | .leaf l, ht => by
    rw [ofTree]
    exact fits_ofLeaf h ht
  | .sequence ts, ht => by
    rw [ofTree]
    exact fits_ofTrees h ts ht
  | .choice ts, ht => by
    rw [ofTree]
    exact fits_ofTrees h ts ht

theorem fits_ofTrees {rules : Nat} {closed : Array (Option Expansion)}
    (h : ClosedFit rules closed) :
    ∀ ts : List Tree, Tree.AllFit rules ts → AllFit rules (ofTrees closed ts)
  | [], _ => by simp [ofTrees, AllFit]
  | t :: ts, ht => by
    rw [ofTrees]
    exact ⟨fits_ofTree h t ht.1, fits_ofTrees h ts ht.2⟩

end

/-- The expansions of closed rules describe what a reading says of the rules. -/
def Agree (closed : Array (Option Expansion)) (L : Reading) : Prop :=
  ∀ c e, closed.getD c none = some e → expand L e.words = L c

theorem expand_ofLeaf {closed : Array (Option Expansion)} {L : Reading} (h : Agree closed L)
    (l : Leaf) : expand L (ofLeaf closed l).words = l.language L := by
  have call (r : RuleId) : expand L ((closed.getD r none).getD (.call r)).words = L r := by
    cases hr : closed.getD r none with
    | none => simp [words, Letter.language]
    | some e => exact h r e hr
  cases l with
  | empty => simp [ofLeaf, words, Leaf.language]
  | literal bytes => simp [ofLeaf, words, Leaf.language, wordLanguage_map_byte]
  | charClass set => simp [ofLeaf, words, Leaf.language]
  | charClassStar set => simp [ofLeaf, words, Leaf.language, expand_kstar]
  | reference r => exact call r
  | repetition r least most =>
    simp only [ofLeaf, words, Leaf.language, expand_copies]
    split
    · rw [call]
    · simp [words, Letter.language]

mutual

theorem expand_ofTree {closed : Array (Option Expansion)} {L : Reading} (h : Agree closed L) :
    ∀ t : Tree, expand L (ofTree closed t).words = t.language L
  | .leaf l => by
    rw [ofTree, Tree.language_leaf]
    exact expand_ofLeaf h l
  | .sequence ts => by
    rw [ofTree, words, Tree.language_sequence]
    exact (expand_ofTrees h ts).1
  | .choice ts => by
    rw [ofTree, words, Tree.language_choice]
    exact (expand_ofTrees h ts).2

theorem expand_ofTrees {closed : Array (Option Expansion)} {L : Reading} (h : Agree closed L) :
    ∀ ts : List Tree,
      expand L (sequenceWords (ofTrees closed ts)) = Tree.sequenceLanguage L ts ∧
        expand L (choiceWords (ofTrees closed ts)) = Tree.choiceLanguage L ts
  | [] => by simp [ofTrees, sequenceWords, choiceWords]
  | t :: ts => by
    simp only [ofTrees, sequenceWords, choiceWords, map_mul, map_add, expand_ofTree h t,
      expand_ofTrees h ts, Tree.sequenceLanguage_cons, Tree.choiceLanguage_cons, and_self]

end

/-! ## Closed rules -/

/-- The rules that are closed stay closed, with the same expansions. -/
def Grow (closed closed' : Array (Option Expansion)) : Prop :=
  ∀ c e, closed.getD c none = some e → closed'.getD c none = some e

private theorem getD_of_isSome {closed closed' : Array (Option Expansion)} (h : Grow closed closed')
    {r : RuleId} (hr : (closed.getD r none).isSome = true) :
    closed'.getD r none = closed.getD r none := by
  obtain ⟨e, he⟩ := Option.isSome_iff_exists.1 hr
  rw [he, h r e he]

mutual

/-- A tree that refers to closed rules alone has the same expansion when more rules are closed. -/
theorem ofTree_of_grow {closed closed' : Array (Option Expansion)} (h : Grow closed closed') :
    ∀ t : Tree, isClosed closed t = true →
      isClosed closed' t = true ∧ ofTree closed' t = ofTree closed t
  | .leaf (.reference r), ht => by
    simp only [isClosed] at ht
    simp only [isClosed, ofTree, ofLeaf, getD_of_isSome h ht, ht, and_self]
  | .leaf (.repetition r least most), ht => by
    simp only [isClosed, Bool.and_eq_true] at ht
    simp only [isClosed, ofTree, ofLeaf, getD_of_isSome h ht.1, ht, Bool.and_self, and_self]
  | .leaf .empty, _ => by simp [isClosed, ofTree, ofLeaf]
  | .leaf (.literal _), _ => by simp [isClosed, ofTree, ofLeaf]
  | .leaf (.charClass _), _ => by simp [isClosed, ofTree, ofLeaf]
  | .leaf (.charClassStar _), _ => by simp [isClosed, ofTree, ofLeaf]
  | .sequence ts, ht => by
    simp only [isClosed] at ht
    simpa [isClosed, ofTree] using ofTrees_of_grow h ts ht
  | .choice ts, ht => by
    simp only [isClosed] at ht
    simpa [isClosed, ofTree] using ofTrees_of_grow h ts ht

theorem ofTrees_of_grow {closed closed' : Array (Option Expansion)} (h : Grow closed closed') :
    ∀ ts : List Tree, areClosed closed ts = true →
      areClosed closed' ts = true ∧ ofTrees closed' ts = ofTrees closed ts
  | [], _ => by simp [areClosed, ofTrees]
  | t :: ts, ht => by
    simp only [areClosed, Bool.and_eq_true] at ht
    simp [areClosed, ofTrees, ofTree_of_grow h t ht.1, ofTrees_of_grow h ts ht.2]

end

/-- Each closed rule refers to closed rules alone, and its expansion is that of its body. -/
structure Settled (g : Grammar) (closed : Array (Option Expansion)) : Prop where
  body : ∀ c e, closed.getD c none = some e →
    ∃ t, g.body c = some t ∧ isClosed closed t = true ∧ e = ofTree closed t
  agree : ∀ L : Reading, (∀ r, L r = g.bodyLanguage L r) → Agree closed L
  fits : g.Valid → ClosedFit g.rules.size closed

theorem ruleTrees_spec {g : Grammar} {r : RuleId} {rule : Rule} {t : Tree}
    (h : g.ruleTrees[r]? = some (rule, t)) : g.body r = some t := by
  simp only [Grammar.ruleTrees, Array.getElem?_map, Option.map_eq_some_iff, Prod.mk.injEq] at h
  obtain ⟨rule', hr, rfl, rfl⟩ := h
  simp [Grammar.body, hr, Grammar.tree]

theorem settled_closeRule {g : Grammar} {closed : Array (Option Expansion)} (h : Settled g closed)
    (r : RuleId) : Settled g (closeRule g.ruleTrees closed r) := by
  unfold closeRule
  split
  · exact h
  · rename_i rule t ht
    split
    · rename_i hc
      simp only [Bool.and_eq_true, Option.isNone_iff_eq_none] at hc
      obtain ⟨⟨-, hnone⟩, hclosed⟩ := hc
      have entry : ∀ c, (closed.setIfInBounds r (some (ofTree closed t))).getD c none =
          if r = c ∧ c < closed.size then some (ofTree closed t) else closed.getD c none := by
        intro c
        by_cases hrc : r = c
        · by_cases hlt : c < closed.size <;>
            simp [Array.getD_eq_getD_getElem?, hrc, hlt]
        · simp [Array.getD_eq_getD_getElem?, hrc]
      have grow : Grow closed (closed.setIfInBounds r (some (ofTree closed t))) := by
        intro c e he
        rw [entry, if_neg, he]
        rintro ⟨rfl, -⟩
        simp [hnone] at he
      constructor
      · intro c e he
        rw [entry] at he
        split at he
        · rename_i hrc
          obtain rfl := hrc.1
          obtain rfl := Option.some.inj he
          obtain ⟨h₁, h₂⟩ := ofTree_of_grow grow t hclosed
          exact ⟨t, ruleTrees_spec ht, h₁, h₂.symm⟩
        · obtain ⟨u, hu, hu', rfl⟩ := h.body c e he
          obtain ⟨h₁, h₂⟩ := ofTree_of_grow grow u hu'
          exact ⟨u, hu, h₁, h₂.symm⟩
      · intro L hL c e he
        rw [entry] at he
        split at he
        · rename_i hrc
          obtain rfl := hrc.1
          obtain rfl := Option.some.inj he
          rw [expand_ofTree (h.agree L hL), hL, Grammar.bodyLanguage_some (ruleTrees_spec ht)]
        · exact h.agree L hL c e he
      · intro hg c e he
        rw [entry] at he
        split at he
        · obtain rfl := Option.some.inj he
          exact fits_ofTree (h.fits hg) t (hg.body_fits (ruleTrees_spec ht))
        · exact h.fits hg c e he
    · exact h

theorem settled_closeRounds {g : Grammar} (rounds : Nat) :
    ∀ closed, Settled g closed → Settled g (closeRounds g.ruleTrees rounds closed) := by
  induction rounds with
  | zero => exact fun closed h => h
  | succ rounds ih =>
    intro closed h
    simp only [closeRounds]
    split
    · exact h
    · refine ih _ (List.foldlRecOn _ _ h fun closed' h' r _ => settled_closeRule h' r)

theorem settled_closedRules (g : Grammar) : Settled g g.closedRules := by
  have none : ∀ c e, (Array.replicate g.rules.size (none : Option Expansion)).getD c none ≠
      some e := by
    intro c e
    by_cases hc : c < g.rules.size <;> simp [Array.getD_eq_getD_getElem?, hc]
  exact settled_closeRounds _ _
    ⟨fun c e he => absurd he (none c e), fun L _ c e he => absurd he (none c e),
      fun _ c e he => absurd he (none c e)⟩

end Expansion

namespace Grammar

/-- The words of the expansions of the rules. -/
def network (g : Grammar) : Network := fun r =>
  match g.expansions[r]? with
  | some x => x.words
  | none => 0

theorem network_of_body {g : Grammar} {r : RuleId} {t : Tree} (h : g.body r = some t) :
    g.network r = (Expansion.ofTree g.closedRules t).words := by
  obtain ⟨rule, hr, rfl⟩ := Option.map_eq_some_iff.1 h
  simp [network, expansions, ruleTrees, hr, tree]

theorem network_of_no_body {g : Grammar} {r : RuleId} (h : g.body r = none) : g.network r = 0 := by
  simp only [body, Option.map_eq_none_iff] at h
  simp [network, expansions, ruleTrees, h]

theorem Valid.fits_expansions {g : Grammar} (hg : g.Valid) {r : RuleId} {x : Expansion}
    (h : g.expansions[r]? = some x) : x.Fits g.rules.size := by
  simp only [expansions, ruleTrees, Array.map_map, Array.getElem?_map, Option.map_eq_some_iff] at h
  obtain ⟨rule, hr, rfl⟩ := h
  exact Expansion.fits_ofTree ((Expansion.settled_closedRules g).fits hg) _ (hg.fits rule.body)

/-- The expansions of a grammar describe what the grammar does. -/
theorem reading_network (g : Grammar) : g.network.reading = g.reading := by
  have settled := Expansion.settled_closedRules g
  apply le_antisymm
  · refine Network.reading_le fun r => ?_
    cases h : g.body r with
    | none => simp [network_of_no_body h]
    | some t =>
      rw [network_of_body h, Expansion.expand_ofTree (settled.agree _ g.reading_eq),
        ← reading_of_body h]
  · have agree : Expansion.Agree g.closedRules g.network.reading := by
      intro c e he
      obtain ⟨t, ht, -, rfl⟩ := settled.body c e he
      rw [← network_of_body ht, ← Network.reading_eq]
    refine reading_le fun r t ht => ?_
    rw [← Expansion.expand_ofTree agree, ← network_of_body ht, ← Network.reading_eq]

end Grammar

end ConstrainedDecoding
