import ConstrainedDecoding.Proofs.Sources
import ConstrainedDecoding.Regex.Pattern

/-!
# Patterns and their sources

A pattern describes the texts that it matches in full, and its source describes the same texts. The
source can be read if quantifiers stand after atoms and all ranges and bounds are in order.
-/
namespace ConstrainedDecoding.Regex

open Ebnf

/-! ## Languages -/

namespace Quantifier

/-- The least number of times. -/
def least : Quantifier → Nat
  | .star | .question => 0
  | .plus => 1
  | .range least _ => least

/-- The greatest number of times, if there is one. -/
def most : Quantifier → Option Nat
  | .star | .plus => none
  | .question => some 1
  | .range _ most => most

theorem bounds_toEbnf (q : Quantifier) : q.toEbnf.least = q.least ∧ q.toEbnf.most = q.most := by
  rcases q with _ | _ | _ | ⟨m, _ | n⟩
  all_goals try exact ⟨rfl, rfl⟩
  unfold toEbnf
  dsimp only
  split
  · subst n
    exact ⟨rfl, rfl⟩
  · exact ⟨rfl, rfl⟩

end Quantifier

namespace Pattern

mutual

/-- The texts that a pattern matches. -/
def language : Pattern → Language Char
  | .char c => {[c]}
  | .set s => Language.single s.chars
  | .group body => body.language
  | .quantified body q => Language.copies body.language q.least q.most
  | .sequence items => sequenceLanguage items
  | .alternation alternatives => choiceLanguage alternatives

/-- The texts that patterns match one after the other. -/
def sequenceLanguage : List Pattern → Language Char
  | [] => 1
  | p :: ps => p.language * sequenceLanguage ps

/-- The texts that some one of several patterns matches. -/
def choiceLanguage : List Pattern → Language Char
  | [] => 0
  | p :: ps => p.language + choiceLanguage ps

end

variable {K : Meaning}

theorem sequenceLanguage_consChar (c : Char) (sources : List Source × Bool) :
    Source.sequenceLanguage K (consChar c sources).1 = {[c]} * Source.sequenceLanguage K sources.1 := by
  have literal (s : String) : ({(c.toString ++ s).toList} : Language Char) = {[c]} * {s.toList} := by
    rw [Language.singleton_mul_singleton, String.toList_append]
    simp
  unfold consChar
  split
  · rw [Source.sequenceLanguage_cons, Source.sequenceLanguage_cons, Source.language_literal,
      Source.language_literal, literal, mul_assoc]
  · simp

mutual

/-- The source of a pattern describes the texts that the pattern matches. -/
theorem language_toSource : ∀ p : Pattern, p.toSource.language K = p.language
  | .char c => by simp [toSource, language]
  | .set s => by simp [toSource, language]
  | .group body => by simp [toSource, language, language_toSource body]
  | .quantified body q => by
    rw [toSource, language, Source.language_quantified, language_toSource body, q.bounds_toEbnf.1,
      q.bounds_toEbnf.2]
  | .sequence items => by
    rw [toSource, language, ← sequenceLanguage_toSources items]
    split
    · rename_i hnil
      rw [hnil]
      simp
      rfl
    · simp
  | .alternation alternatives => by
    rw [toSource, language, Source.language_ofAlternatives, choiceLanguage_toAlternatives alternatives]

theorem sequenceLanguage_toSources : ∀ ps : List Pattern,
    Source.sequenceLanguage K (toSources ps).1 = sequenceLanguage ps
  | [] => by simp [toSources, sequenceLanguage]
  | .char c :: ps => by
    rw [toSources, sequenceLanguage_consChar, sequenceLanguage_toSources ps, sequenceLanguage, language]
  | .set s :: ps => by
    have := sequenceLanguage_toSources ps
    simp_all [toSources, sequenceLanguage, language, toSource]
  | .group p :: ps | .quantified p _ :: ps | .sequence p :: ps | .alternation p :: ps => by
    rw [toSources, sequenceLanguage, ← language_toSource, ← sequenceLanguage_toSources ps,
      Source.sequenceLanguage_cons]
    all_goals nofun

theorem choiceLanguage_toAlternatives : ∀ ps : List Pattern,
    Source.choiceLanguage K (toAlternatives ps) = choiceLanguage ps
  | [] => by simp [toAlternatives, choiceLanguage]
  | p :: ps => by
    rw [toAlternatives, choiceLanguage, Source.choiceLanguage_cons, language_toSource p,
      choiceLanguage_toAlternatives ps]

end

/-! ## Sources that can be read -/

/-- A pattern has a role in other patterns: quantifiers stand after atoms, and ranges and bounds are in
order. -/
inductive WellFormed : Ebnf.Role → Pattern → Prop
  | char {c} : WellFormed .element (.char c)
  | set {s} : (∀ r ∈ s.ranges, r.1 ≤ r.2) → WellFormed .element (.set s)
  | group {p} : WellFormed .choice p → WellFormed .element (.group p)
  | plain {p} : WellFormed .element p → WellFormed .item p
  | quantified {p q} : WellFormed .element p → q.toEbnf.Fits → WellFormed .item (.quantified p q)
  | sequence {ps} : (∀ p ∈ ps, WellFormed .item p) → WellFormed .sequence (.sequence ps)
  | alternation {ps} : ps ≠ [] → (∀ p ∈ ps, WellFormed .sequence p) → WellFormed .choice (.alternation ps)

variable {known : String → Prop}

theorem readable_consChar {c : Char} {sources : List Source × Bool}
    (h : ∀ s ∈ sources.1, Readable known .sequence s) :
    ∀ s ∈ (consChar c sources).1, Readable known .sequence s := by
  unfold consChar
  split
  · simp only [List.forall_mem_cons] at h ⊢
    exact ⟨formed_sequence_literal, h.2⟩
  · exact List.forall_mem_cons.2 ⟨formed_sequence_literal, h⟩

theorem readable_toSources {ps : List Pattern} (h : ∀ p ∈ ps, Readable known .sequence p.toSource) :
    ∀ s ∈ (toSources ps).1, Readable known .sequence s := by
  induction ps with
  | nil => simp [toSources]
  | cons p ps ih =>
    obtain ⟨hp, hps⟩ := List.forall_mem_cons.1 h
    by_cases hchar : ∃ c, p = .char c
    · obtain ⟨c, rfl⟩ := hchar
      exact readable_consChar (ih hps)
    · rw [toSources]
      · exact List.forall_mem_cons.2 ⟨hp, ih hps⟩
      · exact fun c hc => hchar ⟨c, hc⟩

theorem toAlternatives_eq (ps : List Pattern) : toAlternatives ps = ps.map toSource := by
  induction ps with
  | nil => rfl
  | cons p ps ih => rw [toAlternatives, ih, List.map_cons]

/-- The source of a well-formed pattern can be read; that of an atom is an element. -/
theorem WellFormed.readable {role : Ebnf.Role} {p : Pattern} (h : WellFormed role p) :
    Readable known .sequence p.toSource ∧ (role = .element → Readable known .element p.toSource) := by
  -- what is an element is a sequence by itself
  have element {role : Ebnf.Role} {s : Source} (hs : Readable known .element s) :
      Readable known .sequence s ∧ (role = .element → Readable known .element s) :=
    ⟨hs.toSequence, fun _ => hs⟩
  have composed {role : Ebnf.Role} {s : Source} (hrole : role ≠ .element)
      (hs : Readable known .sequence s) :
      Readable known .sequence s ∧ (role = .element → Readable known .element s) :=
    ⟨hs, fun h => absurd h hrole⟩
  induction h with
  | char => exact element formed_literal
  | set h => exact element (formed_charClass.2 (ClassStyle.writes_numbered h))
  | group _ ih => exact element (formed_group.2 ⟨by simp, by simpa using ih.1⟩)
  | plain _ ih => exact composed nofun ih.1
  | quantified _ hq ih => exact composed nofun (formed_quantified.2 ⟨ih.2 rfl, hq⟩)
  | sequence _ ih =>
    refine composed nofun ?_
    have sources := readable_toSources fun p hp => (ih p hp).1
    rw [toSource]
    split
    · exact formed_sequence_literal
    · rename_i hne
      exact formed_sequence.2 ⟨hne, sources⟩
  | alternation hne _ ih =>
    refine composed nofun ?_
    rw [toSource, toAlternatives_eq]
    exact formed_ofAlternatives.2 ⟨by simpa using hne, List.forall_mem_map.2 fun p hp => (ih p hp).1⟩

end Pattern

end ConstrainedDecoding.Regex
