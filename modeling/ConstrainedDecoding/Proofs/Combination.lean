import ConstrainedDecoding.Grammar.Combination
import ConstrainedDecoding.Proofs.Embedding

/-!
# Unions and concatenations

Grammars of any names are put together under a common root. The union describes what some member
describes, the concatenation what the members describe one after the other, and no two rules of the
result have the same name.
-/
namespace ConstrainedDecoding

namespace Grammar

open Draft (Contract Known Adds Fills)

/-! ## Members -/

/-- A node of each member describes what the member does. -/
theorem adds_embedAll {gs : List Grammar} (h : ∀ g ∈ gs, g.Valid) : ∀ known : Known,
    Adds (.free 1) known (embedAll gs) (fun es => es.map .node) fun es G =>
      es.map (fun e => (G.tree e).language G.reading) = gs.map language := by
  induction gs with
  | nil =>
    intro known
    exact Adds.pure (by simp) fun _ _ _ => rfl
  | cons g gs ih =>
    intro known
    obtain ⟨hg, hgs⟩ := List.forall_mem_cons.1 h
    unfold embedAll
    refine (Adds.embed hg).bind fun r => (Adds.reference (by simp)).bind fun e =>
      (ih hgs _).bind fun es => Adds.pure (by simp +contextual) ?_
    rintro G - - hes he ⟨rules, -, rfl, hembeds⟩
    simp [hes, he, Leaf.language, hembeds.reading_eq hg hg.root_lt, language]

/-- A body that is made from the members describes what it is made to describe. -/
theorem exists_combine {gs : List Grammar} (h : ∀ g ∈ gs, g.Valid)
    {body : List ExprId → StateM Draft ExprId} {P : Language UInt8 → List (Language UInt8) → Prop}
    (hbody : ∀ (refs : List ExprId) (known : Known), (∀ e ∈ refs, .node e ∈ known) →
      Adds (.free 1) known (body refs) (fun e => [.node e]) fun e G =>
        P ((G.tree e).language G.reading)
          (refs.map fun r => (G.tree r).language G.reading)) :
    ∃ u, combine gs body = .ok u ∧ u.Valid ∧ P u.language (gs.map language) ∧
      (u.rules.toList.map (·.name)).Nodup := by
  let fill : StateM Draft RuleId := do
    let refs ← embedAll gs
    Draft.giveBody 0 (← body refs)
    return 0
  let d := (Draft.addRule "root" .empty).2
  have run : combine gs body = (fill d).2.finish (fill d).1 := rfl
  have blank : Draft.Blank ["root"] d := Draft.blank_empty.addRule "root"
  have fills : Fills (.free 1) {.body 0} .nothing fill (fun _ => []) fun _ G =>
      ∃ b, G.rules[0]?.map (·.body) = some b ∧
        P ((G.tree b).language G.reading) (gs.map language) := by
    refine (adds_embedAll h _).fill fun refs => (hbody refs _ (by simp +contextual)).fill fun b =>
      Fills.bind (Fills.giveBody (by simp [Contract.free]) (by simp)) (fun _ => Adds.pure (by simp) ?_)
        (Set.union_empty _).symm (by simp)
    rintro G - - hgiven hP hrefs
    exact ⟨b, hgiven, hrefs ▸ hP⟩
  have root : (fill d).1 = 0 := rfl
  obtain ⟨u, hu⟩ : ∃ u, (fill d).2.finish 0 = .ok u := fills.finish blank rfl trivial (by simp) (by simp)
  obtain ⟨completes, hroot, b, hb, hP⟩ := fills.of_finish blank rfl hu
  refine ⟨u, (run.trans (by rw [root])).trans hu, completes.valid, ?_, completes.nodup (by simp)⟩
  obtain ⟨rule, hrule, rfl⟩ := Option.map_eq_some_iff.1 hb
  have hbody : u.body 0 = some (u.tree rule.body) := by simp [Grammar.body, hrule]
  rw [language, hroot, reading_of_body hbody]
  exact hP

/-! ## Unions and concatenations -/

/-- The union describes what some member describes. -/
theorem exists_union {gs : List Grammar} (h : ∀ g ∈ gs, g.Valid) :
    ∃ u, union gs = .ok u ∧ u.Valid ∧ (∀ w, w ∈ u.language ↔ ∃ g ∈ gs, w ∈ g.language) ∧
      (u.rules.toList.map (·.name)).Nodup := by
  suffices ∃ u, union gs = .ok u ∧ u.Valid ∧
      (∀ w, w ∈ u.language ↔ ∃ L ∈ gs.map language, w ∈ L) ∧
      (u.rules.toList.map (·.name)).Nodup by simpa using this
  refine exists_combine h (P := fun K Ks => ∀ w, w ∈ K ↔ ∃ L ∈ Ks, w ∈ L) fun refs known hk => ?_
  split
  · rename_i hempty
    obtain rfl := List.isEmpty_iff.1 hempty
    refine (Adds.addLeaf fun _ => by simp [Leaf.Fits, Leaf.rule?]).imp fun e G _ he w => ?_
    simp [he, Leaf.language, CharClass.mem_language, CharClass.Has, CharClass.Covers]
  · have wrap : Adds (.free 1) known (refs.mapM fun r => Draft.add (.sequence [r]))
        (fun es => es.flatMap fun e => [.node e])
        fun es G => List.Forall₂ (fun r e => G.tree e = .sequence [G.tree r]) refs es :=
      Adds.mapM refs known fun r hr known' hk' =>
        (Adds.sequence (by simpa using hk' _ (hk r hr))).imp fun e G _ he => by simpa using he
    refine wrap.bind fun es => (Adds.choice (by simp +contextual)).imp fun e G _ he hes w => ?_
    simp [he, map_eq_of_forall₂ hes, Tree.mem_choiceLanguage]

/-- The concatenation describes what the members describe, one after the other. -/
theorem exists_concat {gs : List Grammar} (h : ∀ g ∈ gs, g.Valid) :
    ∃ c, concat gs = .ok c ∧ c.Valid ∧ c.language = (gs.map language).prod ∧
      (c.rules.toList.map (·.name)).Nodup := by
  refine exists_combine h (P := fun K Ks => K = Ks.prod) fun refs known hk => ?_
  split
  · rename_i hempty
    obtain rfl := List.isEmpty_iff.1 hempty
    refine (Adds.addLeaf fun _ => by simp [Leaf.Fits, Leaf.rule?]).imp fun e G _ he => ?_
    simp [he, Leaf.language]
  · refine (Adds.sequence hk).bind fun s => (Adds.choice (by simp)).imp fun e G _ he hs => ?_
    simp [he, hs, Tree.sequenceLanguage_eq_prod, Function.comp_def]

/-- Valid grammars of any names have a union, which describes what some member describes, and a
concatenation, which describes what the members describe one after the other; the rules of both go
by different names. -/
theorem union_and_concat_describe {gs : List Grammar} (h : ∀ g ∈ gs, g.Valid) :
    (∃ u, union gs = .ok u ∧ u.Valid ∧ (∀ w, w ∈ u.language ↔ ∃ g ∈ gs, w ∈ g.language) ∧
      (u.rules.toList.map (·.name)).Nodup) ∧
    ∃ c, concat gs = .ok c ∧ c.Valid ∧ c.language = (gs.map language).prod ∧
      (c.rules.toList.map (·.name)).Nodup :=
  ⟨exists_union h, exists_concat h⟩

/-- Two grammars whose rules have the same names, and go by names that numbers would give. In each,
a rule refers to the other one, which the letters `a` and `b` tell apart. -/
def namesakes : List Grammar :=
  [⟨#[⟨"root", 1, some ⟨0, true⟩⟩, ⟨"root_1", 0, none⟩],
      #[.leaf (.literal [0x61]), .leaf (.repetition 1 0 (some 2))], 0⟩,
    ⟨#[⟨"root_1", 0, none⟩, ⟨"root", 2, none⟩, ⟨"root", 0, none⟩],
      #[.leaf (.literal [0x62]), .leaf (.reference 0), .sequence [0, 1]], 1⟩]

theorem namesakes_combined : (∀ g ∈ namesakes, g.Valid) ∧
    (∃ u, union namesakes = .ok u ∧ u.Valid ∧
      (∀ w, w ∈ u.language ↔ ∃ g ∈ namesakes, w ∈ g.language) ∧
      (u.rules.toList.map (·.name)).Nodup) ∧
    ∃ c, concat namesakes = .ok c ∧ c.Valid ∧ c.language = (namesakes.map language).prod ∧
      (c.rules.toList.map (·.name)).Nodup := by
  have valid : ∀ g ∈ namesakes, g.Valid := by decide
  exact ⟨valid, union_and_concat_describe valid⟩

end Grammar
end ConstrainedDecoding
