import ConstrainedDecoding.Proofs.ClassAutomata
import ConstrainedDecoding.Proofs.ClosedRules
import ConstrainedDecoding.Proofs.Dfa
import ConstrainedDecoding.Proofs.Isolation

/-!
# Automata of rules

The automaton of a rule reads the words of the rule's body: bytes, and calls of the rules that are
not closed, where the bodies of closed rules stand in place of references to them.
-/
namespace ConstrainedDecoding

open Expansion (Closes isShort ofTree ofTrees)

/-! ## Words of languages of letters -/

theorem Language.mem_copies_iff_flatten {α : Type} {K : Language α} {least : Nat} {most : Option Nat}
    {w : List α} : w ∈ Language.copies K least most ↔ ∃ ws : List (List α), least ≤ ws.length ∧
      (∀ m ∈ most, ws.length ≤ m) ∧ (∀ v ∈ ws, v ∈ K) ∧ w = ws.flatten := by
  simp only [Language.mem_copies, Language.mem_pow]
  constructor
  · rintro ⟨n, hl, hm, ws, rfl, rfl, hall⟩
    exact ⟨ws, hl, hm, hall, rfl⟩
  · rintro ⟨ws, hl, hm, hall, rfl⟩
    exact ⟨ws.length, hl, hm, ws, rfl, rfl, hall⟩

theorem CharClass.mem_kstar_iff {set : CharClass} {w : List Letter} :
    w ∈ KStar.kstar (Letter.ofBytes set.language) ↔
      ∃ cs : List Char, (∀ c ∈ cs, set.Has c) ∧ w = cs.flatMap Letter.form := by
  rw [Language.mem_kstar]
  simp only [mem_ofBytes_language]
  constructor
  · rintro ⟨ws, rfl, hall⟩
    induction ws with
    | nil => exact ⟨[], by simp, rfl⟩
    | cons v ws ih =>
      obtain ⟨⟨c, hc, rfl⟩, hws⟩ := List.forall_mem_cons.1 hall
      obtain ⟨cs, hcs, heq⟩ := ih hws
      exact ⟨c :: cs, List.forall_mem_cons.2 ⟨hc, hcs⟩, by simp [heq]⟩
  · rintro ⟨cs, hcs, rfl⟩
    refine ⟨cs.map Letter.form, by rw [List.flatMap_def], List.forall_mem_map.2 fun c hc => ?_⟩
    exact ⟨c, hcs c hc, rfl⟩

namespace Grammar

/-! ## Words of trees -/

/-- The words of bytes and calls that a tree has. A reference to a closed rule has the words of its
body, and so has each copy if it is repeated a few times. Any other reference is a call, and any other
repetition as many calls as it allows. -/
inductive Reads (g : Grammar) : Tree → List Letter → Prop
  | empty : Reads g (.leaf .empty) []
  | literal (bytes : Bytes) : Reads g (.leaf (.literal bytes)) (bytes.map Letter.byte)
  | charClass {set : CharClass} {c : Char} (hc : set.Has c) :
      Reads g (.leaf (.charClass set)) (Letter.form c)
  | charClassStar {set : CharClass} (cs : List Char) (hcs : ∀ c ∈ cs, set.Has c) :
      Reads g (.leaf (.charClassStar set)) (cs.flatMap Letter.form)
  | inPlace {r : RuleId} {t : Tree} {w : List Letter} (hr : Closes g.closedRules r)
      (ht : g.body r = some t) (hw : Reads g t w) : Reads g (.leaf (.reference r)) w
  | call {r : RuleId} (hr : ¬ Closes g.closedRules r) : Reads g (.leaf (.reference r)) [.call r]
  | copies {r : RuleId} {least : UInt32} {most : Option UInt32} {t : Tree}
      (hr : Closes g.closedRules r) (short : isShort least most = true) (ht : g.body r = some t)
      (ws : List (List Letter)) (hleast : least.toNat ≤ ws.length)
      (hmost : ∀ m ∈ most, ws.length ≤ m.toNat) (hws : ∀ w ∈ ws, Reads g t w) :
      Reads g (.leaf (.repetition r least most)) ws.flatten
  | calls {r : RuleId} {least : UInt32} {most : Option UInt32}
      (hr : ¬ (Closes g.closedRules r ∧ isShort least most = true)) (n : Nat)
      (hleast : least.toNat ≤ n) (hmost : ∀ m ∈ most, n ≤ m.toNat) :
      Reads g (.leaf (.repetition r least most)) (List.replicate n (.call r))
  | nil : Reads g (.sequence []) []
  | cons {t : Tree} {ts : List Tree} {v w : List Letter} (hv : Reads g t v)
      (hw : Reads g (.sequence ts) w) : Reads g (.sequence (t :: ts)) (v ++ w)
  | choice {t : Tree} {ts : List Tree} {w : List Letter} (ht : t ∈ ts) (hw : Reads g t w) :
      Reads g (.choice ts) w

variable {g : Grammar} {t : Tree} {w : List Letter}

/-- A closed rule has a body. -/
theorem exists_body_of_closes {r : RuleId} (h : Closes g.closedRules r) : ∃ t, g.body r = some t := by
  obtain ⟨x, hx⟩ := Option.isSome_iff_exists.1 h
  obtain ⟨t, ht, -⟩ := (Expansion.settled_closedRules g).body r x hx
  exact ⟨t, ht⟩

theorem ofTree_of_not_closes {r : RuleId} (h : ¬ Closes g.closedRules r) :
    ofTree g.closedRules (.leaf (.reference r)) = .call r := by
  have : g.closedRules.getD r none = none := by simpa [Closes] using h
  rw [ofTree, Expansion.ofLeaf, this, Option.getD_none]

/-- What repetitions of rules that are not put in place repeat. -/
theorem ofTree_repetition {r : RuleId} {least : UInt32} {most : Option UInt32}
    (h : ¬ (Closes g.closedRules r ∧ isShort least most = true)) :
    ofTree g.closedRules (.leaf (.repetition r least most)) =
      .repetition (.call r) least.toNat (most.map UInt32.toNat) := by
  rw [ofTree, Expansion.ofLeaf]
  split
  · rename_i short
    have : g.closedRules.getD r none = none := by
      simpa [Closes] using fun hr => h ⟨hr, short⟩
    rw [this, Option.getD_none]
  · rfl

theorem mem_words_call {r : RuleId} : w ∈ (Expansion.call r).words ↔ w = [.call r] := by
  rw [Expansion.words]
  rfl

theorem mem_words_repetition {x : Expansion} {least : UInt32} {most : Option UInt32} :
    w ∈ (Expansion.repetition x least.toNat (most.map UInt32.toNat)).words ↔
      ∃ ws : List (List Letter), least.toNat ≤ ws.length ∧ (∀ m ∈ most, ws.length ≤ m.toNat) ∧
        (∀ v ∈ ws, v ∈ x.words) ∧ w = ws.flatten := by
  rw [Expansion.words, Language.mem_copies_iff_flatten]
  simp only [Option.mem_map, forall_exists_index, and_imp, forall_apply_eq_imp_iff₂]

theorem mem_choiceWords {ts : List Tree} : w ∈ Expansion.choiceWords (ofTrees g.closedRules ts) ↔
    ∃ t ∈ ts, w ∈ (ofTree g.closedRules t).words := by
  induction ts with
  | nil =>
    rw [ofTrees, Expansion.choiceWords]
    exact iff_of_false (Language.notMem_zero w) (by simp)
  | cons t ts ih =>
    rw [ofTrees, Expansion.choiceWords, Language.mem_add, ih, List.exists_mem_cons_iff]

/-- The words of a tree are words of its expansion. -/
theorem Reads.mem_words (h : g.Reads t w) : w ∈ (ofTree g.closedRules t).words := by
  induction h with
  | empty => rw [ofTree, Expansion.ofLeaf, Expansion.words]; rfl
  | literal bytes => rw [ofTree, Expansion.ofLeaf, Expansion.words]; rfl
  | charClass hc =>
    rw [ofTree, Expansion.ofLeaf, Expansion.words]
    exact CharClass.mem_ofBytes_language.2 ⟨_, hc, rfl⟩
  | charClassStar cs hcs =>
    rw [ofTree, Expansion.ofLeaf, Expansion.words]
    exact CharClass.mem_kstar_iff.2 ⟨cs, hcs, rfl⟩
  | inPlace hr ht _ ih =>
    rw [(ofTree_reference hr ht).1]
    exact ih
  | call hr =>
    rw [ofTree_of_not_closes hr]
    exact mem_words_call.2 rfl
  | copies hr short ht ws hleast hmost _ ih =>
    rw [(ofTree_reference hr ht).2 _ _ short]
    exact mem_words_repetition.2 ⟨ws, hleast, hmost, ih, rfl⟩
  | @calls r least most hr n hleast hmost =>
    rw [ofTree_repetition hr]
    refine mem_words_repetition.2 ⟨List.replicate n [.call r], by simpa using hleast,
      by simpa using hmost, ?_, by simp⟩
    exact fun v hv => mem_words_call.2 (List.eq_of_mem_replicate hv)
  | nil => rw [ofTree, ofTrees, Expansion.words, Expansion.sequenceWords]; rfl
  | cons _ _ ihv ihw =>
    rw [ofTree, Expansion.words] at ihw
    rw [ofTree, ofTrees, Expansion.words, Expansion.sequenceWords]
    exact Language.append_mem_mul ihv ihw
  | choice ht _ ih =>
    rw [ofTree, Expansion.words]
    exact mem_choiceWords.2 ⟨_, ht, ih⟩

/-- The words of expansions one after the other are words of the trees one after the other. -/
theorem reads_of_mem_sequenceWords {ts : List Tree}
    (items : ∀ u ∈ ts, ∀ w, w ∈ (ofTree g.closedRules u).words → g.Reads u w) :
    ∀ w, w ∈ Expansion.sequenceWords (ofTrees g.closedRules ts) → g.Reads (.sequence ts) w := by
  induction ts with
  | nil =>
    intro w hw
    obtain rfl : w = [] := by simpa [ofTrees, Expansion.sequenceWords] using hw
    exact .nil
  | cons u ts ih =>
    intro w hw
    obtain ⟨hu, hts⟩ := List.forall_mem_cons.1 items
    rw [ofTrees, Expansion.sequenceWords, Language.mem_mul] at hw
    obtain ⟨v, hv, w, hw, rfl⟩ := hw
    exact .cons (hu v hv) (ih hts w hw)

/-- Where a rule is not put in place of a repetition, the words are calls of the rule. -/
theorem reads_of_mem_calls {r : RuleId} {least : UInt32} {most : Option UInt32} {w : List Letter}
    (h : ¬ (Closes g.closedRules r ∧ isShort least most = true))
    (hw : w ∈ (ofTree g.closedRules (.leaf (.repetition r least most))).words) :
    g.Reads (.leaf (.repetition r least most)) w := by
  rw [ofTree_repetition h, mem_words_repetition] at hw
  obtain ⟨ws, hleast, hmost, hall, rfl⟩ := hw
  have hws : ws.flatten = List.replicate ws.length (.call r) := by
    conv_lhs => rw [List.eq_replicate_of_mem fun v hv => mem_words_call.1 (hall v hv)]
    exact List.flatten_replicate_singleton
  rw [hws]
  exact .calls h ws.length hleast hmost

/-- The words of its expansion are words of a tree. Trees are taken in the order in which they are
unfolded, as this goes from a reference to the body that stands in its place. -/
theorem reads_of_mem_words (t : Tree) : ∀ w, w ∈ (ofTree g.closedRules t).words → g.Reads t w := by
  induction t using g.unfolds_wellFounded.induction with
  | _ t ih =>
    intro w hw
    cases t with
    | leaf l =>
      cases l with
      | empty =>
        obtain rfl : w = [] := by simpa [ofTree, Expansion.ofLeaf, Expansion.words] using hw
        exact .empty
      | literal bytes =>
        obtain rfl : w = bytes.map Letter.byte := by
          rw [ofTree, Expansion.ofLeaf, Expansion.words] at hw
          exact hw
        exact .literal bytes
      | charClass set =>
        rw [ofTree, Expansion.ofLeaf, Expansion.words] at hw
        obtain ⟨c, hc, rfl⟩ := CharClass.mem_ofBytes_language.1 hw
        exact .charClass hc
      | charClassStar set =>
        rw [ofTree, Expansion.ofLeaf, Expansion.words] at hw
        obtain ⟨cs, hcs, rfl⟩ := CharClass.mem_kstar_iff.1 hw
        exact .charClassStar cs hcs
      | reference r =>
        by_cases hr : Closes g.closedRules r
        · obtain ⟨u, hu⟩ := exists_body_of_closes hr
          rw [(ofTree_reference hr hu).1] at hw
          exact .inPlace hr hu (ih u (.reference hr hu) w hw)
        · rw [ofTree_of_not_closes hr, mem_words_call] at hw
          exact hw ▸ .call hr
      | repetition r least most =>
        by_cases h : Closes g.closedRules r ∧ isShort least most = true
        · obtain ⟨hr, short⟩ := h
          obtain ⟨u, hu⟩ := exists_body_of_closes hr
          rw [(ofTree_reference hr hu).2 _ _ short, mem_words_repetition] at hw
          obtain ⟨ws, hleast, hmost, hall, rfl⟩ := hw
          exact .copies hr short hu ws hleast hmost fun v hv =>
            ih u (.repetition hr short hu) v (hall v hv)
        · exact reads_of_mem_calls h hw
    | sequence ts =>
      rw [ofTree, Expansion.words] at hw
      exact reads_of_mem_sequenceWords (fun u hu => ih u (.item hu)) w hw
    | choice ts =>
      rw [ofTree, Expansion.words, mem_choiceWords] at hw
      obtain ⟨u, hu, hw⟩ := hw
      exact .choice hu (ih u (.alternative hu) w hw)

/-- The automaton of a rule accepts the words of the rule's body, in which the bodies of closed rules
stand in place of references to them and of few repetitions of them, while other references are calls
and other repetitions as many calls as they allow. Whatever is wired between two different states, no
edge is added into the first, and none at the second or at any other state that there was; an added
edge into one of these leads to the second. So what is wired between the same two states does not
mix. -/
theorem nfa_accepts_iff_reads (hg : g.Valid) {r : RuleId} {rule : Rule}
    (hr : g.rules[r]? = some rule) :
    (∃ x, g.expansions[r]? = some x ∧ ∀ w, x.nfa.Accepts w ↔ g.Reads (g.tree rule.body) w) ∧
    ∀ (x : Expansion) (n : Nfa) (start stop : StateId), start < n.edges.size → stop < n.edges.size →
      start ≠ stop →
      let n' := (x.wire start stop n).2
      n'.edgesOf stop = n.edgesOf stop ∧
      (∀ s < n.edges.size, s ≠ start → n'.edgesOf s = n.edgesOf s) ∧
      ∀ s, ∃ added, n'.edgesOf s = added ++ n.edgesOf s ∧
        ∀ e ∈ added, e.target ≠ start ∧ (e.target < n.edges.size → e.target = stop) := by
  constructor
  · have found : g.expansions[r]? = some (ofTree g.closedRules (g.tree rule.body)) := by
      simp [expansions, ruleTrees, hr, tree]
    refine ⟨_, found, fun w => ?_⟩
    obtain ⟨-, start, ends, size, reads⟩ := Expansion.nfa_spec (hg.fits_expansions found)
    have accepts : (ofTree g.closedRules (g.tree rule.body)).nfa.Accepts w ↔
        (ofTree g.closedRules (g.tree rule.body)).nfa.Path 0 w 1 := by
      simp only [Nfa.Accepts, Nfa.IsEnd, start, ends, List.mem_singleton]
      constructor
      · rintro ⟨_, ⟨rfl, -⟩, hpath⟩
        exact hpath
      · exact fun hpath => ⟨1, ⟨rfl, size⟩, hpath⟩
    rw [accepts, reads]
    exact ⟨reads_of_mem_words _ w, Reads.mem_words⟩
  · intro x n start stop hstart hstop hne n'
    have apart := Expansion.apart_wire x n start stop
    have same (s : StateId) (hs : s < n.edges.size) (hne : s ≠ start) :
        n'.edgesOf s = n.edgesOf s := apart.edgesOf_eq hs hne
    refine ⟨same stop hstop hne.symm, same, fun s => ?_⟩
    obtain ⟨added, hadded, hall⟩ := apart.edges s
    refine ⟨added, hadded, fun e he => ?_⟩
    rcases (hall e he).2 with htarget | hnew
    · exact ⟨htarget ▸ hne.symm, fun _ => htarget⟩
    · exact ⟨(hstart.trans_le hnew).ne', fun hlt => absurd hlt (not_lt.2 hnew)⟩

/-- A star, two or three copies of a closed rule, and a rule that calls itself, side by side:
`root ::= [a]* | ab\x7b2,3\x7d | "(" root ")"` and `ab ::= "ab"`. -/
def sideBySide : Grammar where
  rules := #[⟨"root", 7, none⟩, ⟨"ab", 0, none⟩]
  exprs := #[.leaf (.literal [97, 98]), .leaf (.charClassStar ⟨false, [(97, 97)]⟩),
    .leaf (.repetition 1 2 (some 3)), .leaf (.literal [40]), .leaf (.reference 0),
    .leaf (.literal [41]), .sequence [3, 4, 5], .choice [1, 2, 6]]
  root := 0

/-- Copies of the closed rule are read in place, and the rule that refers to itself is called. -/
theorem sideBySide_accepts : sideBySide.Valid ∧ ∃ x, sideBySide.expansions[0]? = some x ∧
    x.nfa.Accepts [.byte 97, .byte 98, .byte 97, .byte 98] ∧
    x.nfa.Accepts [.byte 40, .call 0, .byte 41] := by
  have hg : sideBySide.Valid := by decide
  have tree : sideBySide.tree 7 = .choice [.leaf (.charClassStar ⟨false, [(97, 97)]⟩),
      .leaf (.repetition 1 2 (some 3)),
      .sequence [.leaf (.literal [40]), .leaf (.reference 0), .leaf (.literal [41])]] := rfl
  have body : sideBySide.body 1 = some (.leaf (.literal [97, 98])) := rfl
  have root : sideBySide.rules[0]? = some ⟨"root", 7, none⟩ := rfl
  obtain ⟨⟨x, hx, accepts⟩, -⟩ := nfa_accepts_iff_reads hg root
  rw [tree] at accepts
  have copies : sideBySide.Reads (.leaf (.repetition 1 2 (some 3)))
      [[.byte 97, .byte 98], [.byte 97, .byte 98]].flatten :=
    .copies (by decide +kernel) (by decide) body _ (by decide) (by simp)
      (by simpa using Reads.literal [97, 98])
  have nested : sideBySide.Reads (.sequence [.leaf (.literal [40]), .leaf (.reference 0),
      .leaf (.literal [41])]) ([.byte 40] ++ ([.call 0] ++ ([.byte 41] ++ []))) :=
    have self : ¬ Closes sideBySide.closedRules 0 := by decide +kernel
    .cons (.literal [40]) (.cons (.call self) (.cons (.literal [41]) .nil))
  exact ⟨hg, x, hx, (accepts _).2 (.choice (by simp) copies), (accepts _).2 (.choice (by simp) nested)⟩

end Grammar

end ConstrainedDecoding
