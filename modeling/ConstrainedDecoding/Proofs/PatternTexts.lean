import ConstrainedDecoding.Proofs.IntegerSchemas
import ConstrainedDecoding.Proofs.PatternDescent
import ConstrainedDecoding.Proofs.RangeWords

/-!
# The texts of range patterns

A pattern of characters and ranges can be written down, and what is written describes the texts that
the pattern matches. So the pattern between two bounds and its text both match the decimal texts of the
integers between the bounds, and no others.
-/
namespace ConstrainedDecoding.Regex

open Computability

/-! ## Writing patterns -/

/-- The characters of a quantifier. -/
def Quantifier.written : Quantifier → List Char
  | .star => ['*']
  | .plus => ['+']
  | .question => ['?']
  | .range least none => '\x7b' :: (Nat.toDigits 10 least ++ [',', '\x7d'])
  | .range least (some most) =>
    if least = most then '\x7b' :: (Nat.toDigits 10 least ++ ['\x7d'])
    else '\x7b' :: (Nat.toDigits 10 least ++ ',' :: (Nat.toDigits 10 most ++ ['\x7d']))

/-- The characters of the members of a class, with the closing bracket. -/
def writtenRanges : Ranges → List Char
  | [] => [']']
  | (lo, hi) :: rest => Char.ofNat lo.toNat :: '-' :: Char.ofNat hi.toNat :: writtenRanges rest

namespace Pattern

mutual

/-- The characters of a pattern. -/
def written : Pattern → List Char
  | .char c => if c ∈ specials then ['\\', c] else [c]
  | .set s => '[' :: ((if s.negated then ['^'] else []) ++ writtenRanges s.ranges)
  | .group body => '(' :: ('?' :: ':' :: (body.written ++ [')']))
  | .quantified body q => body.written ++ q.written
  | .sequence items => writtenItems items
  | .alternation alternatives => writtenAlternatives alternatives

/-- The characters of patterns one after the other. -/
def writtenItems : List Pattern → List Char
  | [] => []
  | p :: ps => p.written ++ writtenItems ps

/-- The characters of patterns with bars between them. -/
def writtenAlternatives : List Pattern → List Char
  | [] => []
  | [p] => p.written
  | p :: ps => p.written ++ '|' :: writtenAlternatives ps

end

/-- A code point that stands for itself at either end of a range. -/
def PlainPoint (u : UInt32) : Prop := u.toNat.isValidChar ∧ Char.ofNat u.toNat ∉ ['\\', ']', '^']

/-- No character of the pattern could be taken for a quantifier, and no end of a range for anything else. -/
inductive Plain : Pattern → Prop
  | char {c} : c ≠ '\x7b' → Plain (.char c)
  | set {s} : s.ranges ≠ [] → (∀ r ∈ s.ranges, PlainPoint r.1 ∧ PlainPoint r.2) → Plain (.set s)
  | group {p} : Plain p → Plain (.group p)
  | quantified {p q} : Plain p → Plain (.quantified p q)
  | sequence {ps} : (∀ p ∈ ps, Plain p) → Plain (.sequence ps)
  | alternation {ps} : (∀ p ∈ ps, Plain p) → Plain (.alternation ps)

/-! ## What is written describes the pattern -/

theorem digits_toDigits {n : Nat} (h : n ≤ timesLimit) : Digits (Nat.toDigits 10 n) n :=
  ⟨List.length_pos_iff.1 Nat.length_toDigits_pos, allDigits_toDigits n, decimal_toDigits n, h⟩

/-- A quantifier that can be counted asks for as many times as it says. -/
theorem times_written {q : Quantifier} (h : q.toEbnf.Fits) : Times q.written q.least q.most := by
  rw [Ebnf.Quantifier.Fits, q.bounds_toEbnf.1, q.bounds_toEbnf.2] at h
  obtain ⟨hleast, hmost⟩ := h
  cases q with
  | star => exact .star
  | plus => exact .plus
  | question => exact .question
  | range least most =>
    cases most with
    | none => exact .atLeast (digits_toDigits hleast)
    | some most =>
      obtain ⟨hle, hlimit⟩ := hmost most rfl
      by_cases heq : least = most
      · subst heq
        simpa [Quantifier.written, Quantifier.least, Quantifier.most] using Times.exactly (digits_toDigits hleast)
      · simpa [Quantifier.written, Quantifier.least, Quantifier.most, heq] using
          Times.between (digits_toDigits hleast) (digits_toDigits hlimit) hle

theorem PlainPoint.point {u : UInt32} (h : PlainPoint u) : Point [Char.ofNat u.toNat] u.toNat := by
  have := Point.plain (c := Char.ofNat u.toNat) (by rintro heq; simp [PlainPoint, heq] at h)
  rwa [Char.toNat_ofNat, if_pos h.1] at this

/-- Plain ranges have the members between their ends. -/
theorem members_written {rs : Ranges} (hplain : ∀ r ∈ rs, PlainPoint r.1 ∧ PlainPoint r.2)
    (hordered : ∀ r ∈ rs, r.1 ≤ r.2) {first : Bool} (hfirst : rs = [] → first = false) :
    Members first (writtenRanges rs) {c | ∃ r ∈ rs, r.1.toNat ≤ c.toNat ∧ c.toNat ≤ r.2.toNat} := by
  induction rs generalizing first with
  | nil =>
    obtain rfl := hfirst rfl
    simpa [writtenRanges] using Members.close
  | cons r rs ih =>
    obtain ⟨⟨hlo, hhi⟩, hplain⟩ := List.forall_mem_cons.1 hplain
    obtain ⟨hle, hordered⟩ := List.forall_mem_cons.1 hordered
    have noBracket {u : UInt32} (h : PlainPoint u) : [Char.ofNat u.toNat] ≠ [']'] := by
      rintro heq
      simp [PlainPoint, List.singleton_inj.1 heq] at h
    have := Members.range hlo.point (fun heq => (absurd heq (noBracket hlo) : first = true)) hhi.point
      (noBracket hhi) (UInt32.le_iff_toNat_le.1 hle) (ih hplain hordered fun _ => rfl)
    simpa [writtenRanges, Set.ofPred_or] using this

/-- A class of plain ranges describes its characters. -/
theorem describes_class {s : CharClass} (hne : s.ranges ≠ []) (hplain : ∀ r ∈ s.ranges, PlainPoint r.1 ∧ PlainPoint r.2)
    (hordered : ∀ r ∈ s.ranges, r.1 ≤ r.2) :
    Describes .atom (written (.set s)) (Language.single s.chars) := by
  have members := members_written hplain hordered fun h => (absurd h hne : true = false)
  obtain ⟨negated, rs⟩ := s
  cases negated with
  | false =>
    have := Describes.oneOf ?_ (show Members true (writtenRanges rs) _ from members)
    · simpa [written, CharClass.chars, CharClass.Has, CharClass.Covers] using this
    · cases rs with
      | nil => exact absurd rfl hne
      | cons r rs =>
        have := (hplain r List.mem_cons_self).1.2
        simp only [List.mem_cons, List.not_mem_nil, or_false, not_or] at this
        simpa [writtenRanges] using this.2.2
  | true =>
    have := Describes.noneOf members
    simpa [written, CharClass.chars, CharClass.Has, CharClass.Covers, Set.compl_ofPred] using this

theorem describes_char (c : Char) : Describes .atom (written (.char c)) {[c]} := by
  rw [written]
  split
  · rename_i hc
    have : c ∉ letters ∧ c ∉ refused := by fin_cases hc <;> simp [letters, controls, shorthands, refused]
    exact .escaped (.own this.1 this.2)
  · rename_i hc
    exact .char hc

/-- What is written for a pattern in a role describes what the pattern matches. An item may have anything
after it that does not start like a count. -/
def IsWritten (p : Pattern) : Ebnf.Role → Prop
  | .element => Describes .atom p.written p.language
  | .item => ∀ {ds K}, ¬ StartsCount ds → Describes .sequence ds K →
      Describes .sequence (p.written ++ ds) (p.language * K)
  | .sequence => Describes .sequence p.written p.language
  | .choice => Describes .alternation p.written p.language

/-- A plain element starts with no brace. -/
theorem head_written {role : Ebnf.Role} {p : Pattern} (h : WellFormed role p) (hplain : Plain p)
    (hrole : role = .element ∨ role = .item) : ∃ c cs, p.written = c :: cs ∧ c ≠ '\x7b' := by
  induction h with
  | char =>
    cases hplain with
    | char hc =>
      rw [written]
      split
      · exact ⟨_, _, rfl, by decide⟩
      · exact ⟨_, _, rfl, hc⟩
  | set | group => exact ⟨_, _, by rw [written], by decide⟩
  | plain _ ih => exact ih hplain (Or.inl rfl)
  | @quantified p q _ _ ih =>
    cases hplain with
    | quantified hplain =>
      obtain ⟨c, cs, heq, hc⟩ := ih hplain (Or.inl rfl)
      exact ⟨c, cs ++ q.written, by rw [written, heq, List.cons_append], hc⟩
  | sequence => simp at hrole
  | alternation => simp at hrole

theorem not_startsCount_of_head {c : Char} (hc : c ≠ '\x7b') (cs : List Char) : ¬ StartsCount (c :: cs) := by
  rintro ⟨_, _, heq, -⟩
  exact hc (List.cons.inj heq).1

/-- Items one after the other. -/
theorem describes_items {ps : List Pattern} (h : ∀ p ∈ ps, WellFormed .item p) (hplain : ∀ p ∈ ps, Plain p)
    (hwritten : ∀ p ∈ ps, p.IsWritten .item) :
    Describes .sequence (writtenItems ps) (sequenceLanguage ps) ∧ ¬ StartsCount (writtenItems ps) := by
  induction ps with
  | nil => exact ⟨.nil, by rintro ⟨_, _, ⟨⟩, -⟩⟩
  | cons p ps ih =>
    obtain ⟨hp, hps⟩ := List.forall_mem_cons.1 h
    obtain ⟨hplain, hplains⟩ := List.forall_mem_cons.1 hplain
    obtain ⟨hwritten, hwrittens⟩ := List.forall_mem_cons.1 hwritten
    obtain ⟨hdescribes, hstarts⟩ := ih hps hplains hwrittens
    obtain ⟨c, cs, heq, hc⟩ := head_written hp hplain (Or.inr rfl)
    refine ⟨hwritten hstarts hdescribes, ?_⟩
    rw [writtenItems, heq]
    exact not_startsCount_of_head hc _

/-- Sequences with bars between them. -/
theorem describes_alternatives {ps : List Pattern} (hne : ps ≠ []) (hwritten : ∀ p ∈ ps, p.IsWritten .sequence) :
    Describes .alternation (writtenAlternatives ps) (choiceLanguage ps) := by
  induction ps with
  | nil => exact absurd rfl hne
  | cons p ps ih =>
    obtain ⟨hp, hps⟩ := List.forall_mem_cons.1 hwritten
    cases ps with
    | nil =>
      rw [choiceLanguage, choiceLanguage, add_zero]
      exact .only hp
    | cons q qs => exact .bar hp (ih (List.cons_ne_nil q qs) hps)

/-- What is written for a plain pattern describes what the pattern matches. -/
theorem WellFormed.isWritten {role : Ebnf.Role} {p : Pattern} (h : WellFormed role p) (hplain : Plain p) :
    p.IsWritten role := by
  induction h with
  | @char c =>
    rw [IsWritten, language]
    exact describes_char c
  | set hordered =>
    cases hplain with
    | set hne hplain =>
      rw [IsWritten, language]
      exact describes_class hne hplain hordered
  | group _ ih =>
    cases hplain with
    | group hplain =>
      rw [IsWritten, language]
      exact .group .plain (ih hplain)
  | plain _ ih => exact fun hds hdescribes => (ih hplain).item hds hdescribes
  | @quantified p q _ hfits ih =>
    cases hplain with
    | quantified hplain =>
      intro ds K _ hds
      have := (ih hplain).repeated (times_written hfits) (show [] ∈ [[], ['?']] by simp) hds
      simpa only [written, language, List.nil_append, List.append_assoc] using this
  | sequence h ih =>
    cases hplain with
    | sequence hplain =>
      rw [IsWritten, language]
      exact (describes_items h hplain fun p hp => ih p hp (hplain p hp)).1
  | alternation hne _ ih =>
    cases hplain with
    | alternation hplain =>
      rw [IsWritten, language]
      exact describes_alternatives hne fun p hp => ih p hp (hplain p hp)

end Pattern

/-! ## Range patterns are plain -/

open Pattern

/-- All of the items are plain. -/
def PlainItems (ps : List Pattern) : Prop := ∀ p ∈ ps, p.Plain

theorem PlainItems.cons {p : Pattern} {ps : List Pattern} (hp : p.Plain) (hps : PlainItems ps) : PlainItems (p :: ps) :=
  List.forall_mem_cons.2 ⟨hp, hps⟩

theorem plainItems_singleton {p : Pattern} (hp : p.Plain) : PlainItems [p] := List.forall_mem_singleton.2 hp

theorem plainItems_oneOf {xs : List (List Pattern)} (h : ∀ x ∈ xs, PlainItems x) : PlainItems (oneOf xs) := by
  unfold oneOf
  split
  · exact h _ List.mem_cons_self
  · exact plainItems_singleton (.group (.alternation (List.forall_mem_map.2 fun x hx => .sequence (h x hx))))

theorem plain_digitChar {d : Nat} (hd : d ≤ 9) : Plain (.char (digitChar d)) := by
  refine .char fun heq => ?_
  have := isDigit_digitChar hd
  rw [heq] at this
  exact absurd this (by decide)

theorem plainPoint_digit {d : Nat} (hd : d ≤ 9) : PlainPoint (UInt32.ofNat (48 + d)) := by
  rw [PlainPoint, toNat_digitCode hd]
  exact ⟨by left; omega, by interval_cases d <;> decide⟩

theorem plain_digitBetween {lo hi : Nat} (hlo : lo ≤ 9) (hhi : hi ≤ 9) : Plain (digitBetween lo hi) := by
  unfold digitBetween
  split
  · exact plain_digitChar hlo
  · exact .set (List.cons_ne_nil _ _) (List.forall_mem_singleton.2 ⟨plainPoint_digit hlo, plainPoint_digit hhi⟩)

theorem plain_anyDigits (n : Nat) : Plain (anyDigits n) :=
  .quantified (plain_digitBetween (Nat.zero_le 9) le_rfl)

theorem plainItems_sameLength (ls hs : List Nat) (hls : ∀ d ∈ ls, d ≤ 9) (hhs : ∀ d ∈ hs, d ≤ 9) :
    PlainItems (sameLength ls hs) := by
  fun_induction sameLength ls hs with
  | case1 lo hi tail =>
    exact plainItems_singleton (plain_digitBetween (hls lo List.mem_cons_self) (hhs hi List.mem_cons_self))
  | case2 los hi his _ ih =>
    exact .cons (plain_digitChar (hhs hi List.mem_cons_self))
      (ih (List.forall_mem_cons.1 hls).2 (List.forall_mem_cons.1 hhs).2)
  | case3 lo los hi his _ n _ _ =>
    exact .cons (plain_digitBetween (hls lo List.mem_cons_self) (hhs hi List.mem_cons_self))
      (plainItems_singleton (plain_anyDigits _))
  | case4 lo los hi his _ n _ _ first last hgap ih ih' =>
    obtain ⟨hlo, hlos⟩ := List.forall_mem_cons.1 hls
    obtain ⟨hhi, hhis⟩ := List.forall_mem_cons.1 hhs
    have hfirst : PlainItems first := .cons (plain_digitChar hlo) (ih hlos (DigitBounds.replicate_le le_rfl))
    have hlast : PlainItems last := .cons (plain_digitChar hhi) (ih' (DigitBounds.replicate_le (Nat.zero_le 9)) hhis)
    have hmiddle : PlainItems [digitBetween (lo + 1) (hi - 1), anyDigits n] :=
      .cons (plain_digitBetween (by omega) (by omega)) (plainItems_singleton (plain_anyDigits n))
    exact plainItems_oneOf (List.forall_mem_cons.2 ⟨hfirst, List.forall_mem_cons.2 ⟨hmiddle,
      List.forall_mem_singleton.2 hlast⟩⟩)
  | case5 lo los hi his _ n _ _ first last _ ih ih' =>
    obtain ⟨hlo, hlos⟩ := List.forall_mem_cons.1 hls
    obtain ⟨hhi, hhis⟩ := List.forall_mem_cons.1 hhs
    have hfirst : PlainItems first := .cons (plain_digitChar hlo) (ih hlos (DigitBounds.replicate_le le_rfl))
    have hlast : PlainItems last := .cons (plain_digitChar hhi) (ih' (DigitBounds.replicate_le (Nat.zero_le 9)) hhis)
    exact plainItems_oneOf (List.forall_mem_cons.2 ⟨hfirst, List.forall_mem_singleton.2 hlast⟩)
  | case6 => exact List.forall_mem_nil _

theorem plainItems_naturalsBetween (lo hi : Nat) : PlainItems (naturalsBetween lo hi) := by
  unfold naturalsBetween
  dsimp only
  split
  · exact plainItems_sameLength _ _ (decimalDigits_le lo) (decimalDigits_le hi)
  · refine plainItems_oneOf (List.forall_mem_cons.2 ⟨?_, List.forall_mem_append.2 ⟨?_, ?_⟩⟩)
    · exact plainItems_sameLength _ _ (decimalDigits_le lo) (DigitBounds.replicate_le le_rfl)
    · refine List.forall_mem_map.2 fun k _ => .cons (plain_digitBetween (by decide) le_rfl) ?_
      exact plainItems_singleton (plain_anyDigits _)
    · refine List.forall_mem_singleton.2 (plainItems_sameLength _ _ ?_ (decimalDigits_le hi))
      exact List.forall_mem_cons.2 ⟨by decide, DigitBounds.replicate_le (Nat.zero_le 9)⟩

/-- A digit that is not zero, and then any digits. -/
theorem plainItems_nonzero (q : Quantifier) : PlainItems [digitBetween 1 9, .quantified anyDigit q] :=
  .cons (plain_digitBetween (by decide) le_rfl)
    (plainItems_singleton (.quantified (plain_digitBetween (Nat.zero_le 9) le_rfl)))

theorem plainItems_anyNatural : PlainItems anyNatural := by
  refine plainItems_singleton (.group (.alternation (List.forall_mem_cons.2 ⟨?_, List.forall_mem_singleton.2 ?_⟩)))
  · exact .sequence (plainItems_singleton (.char (by decide)))
  · exact .sequence (plainItems_nonzero .star)

theorem plainItems_naturalsFrom (lo : Nat) : PlainItems (naturalsFrom lo) := by
  unfold naturalsFrom
  split
  · exact plainItems_anyNatural
  · refine plainItems_oneOf (List.forall_mem_cons.2 ⟨?_, List.forall_mem_singleton.2 (plainItems_nonzero _)⟩)
    exact plainItems_sameLength _ _ (decimalDigits_le lo) (DigitBounds.replicate_le le_rfl)

theorem PlainItems.negative {ps : List Pattern} (h : PlainItems ps) : PlainItems (negative ps) :=
  .cons (.char (by decide)) h

theorem plainItems_integersBetween (lo hi : Option Int) : PlainItems (integersBetween lo hi) := by
  have pair {ps qs : List Pattern} (h : PlainItems ps) (h' : PlainItems qs) : PlainItems (oneOf [ps, qs]) :=
    plainItems_oneOf (List.forall_mem_cons.2 ⟨h, List.forall_mem_singleton.2 h'⟩)
  cases lo with
  | none =>
    cases hi with
    | none => exact .cons (.quantified (.char (by decide))) plainItems_anyNatural
    | some hi =>
      simp only [integersBetween]
      split
      · exact pair (plainItems_nonzero .star).negative (plainItems_naturalsBetween _ _)
      · exact (plainItems_naturalsFrom _).negative
  | some lo =>
    cases hi with
    | none =>
      simp only [integersBetween]
      split
      · exact plainItems_naturalsFrom _
      · exact pair (plainItems_naturalsBetween _ _).negative (plainItems_naturalsFrom 0)
    | some hi =>
      simp only [integersBetween]
      refine plainItems_oneOf (List.forall_mem_append.2 ⟨?_, ?_⟩)
      · split
        · exact List.forall_mem_singleton.2 (plainItems_naturalsBetween _ _).negative
        · exact List.forall_mem_nil _
      · split
        · exact List.forall_mem_singleton.2 (plainItems_naturalsBetween _ _)
        · exact List.forall_mem_nil _

/-! ## The integers between two words -/

/-- The pattern for the integers between two words of 64 bits, each of which may be absent. -/
def wordsBetween (lo hi : Option Int64) : Pattern :=
  .sequence (integersBetween (lo.map Int64.toInt) (hi.map Int64.toInt))

/-- The digits of a word can be counted. -/
theorem countable_word (w : Int64) : Countable w.toInt := by
  have hle := w.le_toInt
  have hlt := w.toInt_lt
  calc digitCount w.toInt.natAbs ≤ digitCount (2 ^ 63) := digitCount_mono (by omega)
    _ ≤ digitLimit := by decide

/-- The pattern between two words in order, which machine arithmetic finds without overflow, matches in full
the decimal texts of the integers between them, and so does its text. -/
theorem wordsBetween_matches_decimals {lo hi : Option Int64} (hsome : lo ≠ none ∨ hi ≠ none)
    (hle : ∀ l ∈ lo, ∀ h ∈ hi, l ≤ h) :
    (integersOfWords? lo hi).map Pattern.sequence = some (wordsBetween lo hi) ∧
    ∃ K, Matches (wordsBetween lo hi).written K ∧ (∀ K', Matches (wordsBetween lo hi).written K' → K' = K) ∧
      (wordsBetween lo hi).language = K ∧ ∀ text, text ∈ K ↔
        ∃ z : Int, (∀ l ∈ lo, l.toInt ≤ z) ∧ (∀ h ∈ hi, z ≤ h.toInt) ∧ text = (toString z).toList := by
  have hsome : lo.map Int64.toInt ≠ none ∨ hi.map Int64.toInt ≠ none := by simpa using hsome
  have fit := fit_integersBetween hsome
    (by simpa using fun l hl h hh => Int64.le_iff_toInt_le.1 (hle l hl h hh))
    (by simpa using fun l _ => countable_word l) (by simpa using fun h _ => countable_word h)
  have hlanguage : (wordsBetween lo hi).language = signed (Within (lo.map Int64.toInt) (hi.map Int64.toInt)) := by
    rw [wordsBetween, language, fit.language]
  have hdescribes : Describes .sequence (wordsBetween lo hi).written (wordsBetween lo hi).language :=
    (WellFormed.sequence fit.wellFormed).isWritten (.sequence (plainItems_integersBetween _ _))
  have hmatches : Matches (wordsBetween lo hi).written (wordsBetween lo hi).language :=
    ⟨[], by simp, _, [], by simp, .only hdescribes, by simp⟩
  refine ⟨by rw [integersOfWords?_eq, Option.map_some, wordsBetween], _, hmatches, fun K' hK' => ?_, rfl,
    fun text => ?_⟩
  · exact Matches.unique (show Matches (String.ofList (wordsBetween lo hi).written).toList K' by simpa using hK')
      (by simpa using hmatches)
  · rw [hlanguage, mem_signed]
    simp [Within, and_assoc]

/-- From the least word to the greatest, both are matched, and the number after the greatest is not. -/
theorem allWords_match : ∃ K, Matches (wordsBetween (some Int64.minValue) (some Int64.maxValue)).written K ∧
    "-9223372036854775808".toList ∈ K ∧ "9223372036854775807".toList ∈ K ∧ "9223372036854775808".toList ∉ K := by
  obtain ⟨-, K, hmatches, -, -, hmem⟩ := @wordsBetween_matches_decimals (some Int64.minValue) (some Int64.maxValue)
    (Or.inl nofun) (by rintro _ ⟨⟩ _ ⟨⟩; decide)
  have mem {z : Int} {text : String} (htext : toString z = text) :
      text.toList ∈ K ↔ -9223372036854775808 ≤ z ∧ z ≤ 9223372036854775807 := by
    rw [hmem]
    constructor
    · rintro ⟨y, hlo, hhi, heq⟩
      obtain rfl : z = y := Int.repr_inj.1 (htext.trans (String.toList_inj.1 heq))
      exact ⟨hlo _ rfl, hhi _ rfl⟩
    · rintro ⟨hlo, hhi⟩
      exact ⟨z, by rintro _ ⟨⟩; exact hlo, by rintro _ ⟨⟩; exact hhi, by rw [htext]⟩
  exact ⟨K, hmatches, (mem (z := -9223372036854775808) (by decide)).2 (by decide),
    (mem (z := 9223372036854775807) (by decide)).2 (by decide),
    fun h => absurd ((mem (z := 9223372036854775808) (by decide)).1 h) (by decide)⟩

/-- The text of a pattern between bounds of different signs. -/
example : (wordsBetween (some (-5)) (some 5)).written = "(?:-[1-5]|[0-5])".toList := by decide +kernel

end ConstrainedDecoding.Regex
