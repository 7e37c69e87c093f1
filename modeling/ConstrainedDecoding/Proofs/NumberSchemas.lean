import ConstrainedDecoding.Proofs.IntegerSchemas
import ConstrainedDecoding.Proofs.RangeWords

/-!
# Numbers between two bounds

A schema of numbers with bounds is converted to patterns for whole bounds. Everything that they match is
a number between the bounds. Not every number between them is matched, also if the bounds were whole: a
fraction is not if a whole number next to it is not between them.
-/
namespace ConstrainedDecoding.Schema

open Ebnf Json
open Regex (Decimal Within)

/-! ## Sources of numbers -/

section

variable {lo hi : Option Int}

/-- There are patterns between two bounds exactly if the bounds are in order. -/
theorem decimalsBetween_ne_nil {a b : Int} : Regex.decimalsBetween (some a) (some b) ≠ [] ↔ a ≤ b := by
  constructor
  · intro hne
    obtain ⟨ps, hps⟩ := List.exists_mem_of_ne_nil _ hne
    rcases Regex.mem_decimalsBetween.1 hps with ⟨h, -⟩ | ⟨h, -⟩ | ⟨⟨h, h'⟩, -⟩ | ⟨h, -⟩
    · exact h a rfl b rfl
    · have := h b rfl
      simp only [Regex.leastWhole, Option.map_some, Option.getD_some] at this
      omega
    · exact (h a rfl).trans (le_trans (by decide) (h' b rfl))
    · have := h a rfl
      simp only [Regex.leastMagnitude, Option.map_some, Option.getD_some] at this
      omega
  · intro hle
    refine List.ne_nil_of_mem (Regex.mem_decimalsBetween.2 (Or.inl ⟨?_, rfl⟩))
    rintro _ ⟨⟩ _ ⟨⟩
    exact hle

theorem Moderate.word {bound : Option Int} (h : Moderate bound) :
    (bound.map Int64.ofInt).map Int64.toInt = bound ∧ ∀ w ∈ bound.map Int64.ofInt, -2 ^ 63 < w.toInt := by
  cases bound with
  | none => exact ⟨rfl, nofun⟩
  | some z =>
    have hz : z.natAbs ≤ boundLimit + 1 := h z rfl
    have hlimit : boundLimit + 1 < 2 ^ 63 := by decide
    have hword : (Int64.ofInt z).toInt = z := Int64.toInt_ofInt_of_le (by omega) (by omega)
    refine ⟨congrArg some hword, ?_⟩
    rintro _ ⟨⟩
    rw [hword]
    omega

/-- The source of numbers between two bounds is that of the patterns between them, if there are any. -/
theorem toSource_number (l : Layout) (follow : String → Nat → Conversion Source) (depth : Nat) (path : String)
    (hsome : lo ≠ none ∨ hi ≠ none) : (Schema.number lo hi).toSource l follow depth path =
      if Regex.decimalsBetween lo hi = [] then throw (.at_ path .noNumber)
      else return (Regex.Pattern.sequence (Regex.oneOf (Regex.decimalsBetween lo hi))).toSource := by
  rw [toSource]
  · split
    · rename_i hnil
      rw [if_pos hnil]
    · rename_i hne
      rw [if_neg hne]
  · rintro rfl rfl
    simp at hsome

theorem language_number (hsome : lo ≠ none ∨ hi ≠ none) (hlo : Moderate lo) (hhi : Moderate hi)
    (hne : Regex.decimalsBetween lo hi ≠ []) (K : Meaning) :
    (Regex.Pattern.sequence (Regex.oneOf (Regex.decimalsBetween lo hi))).toSource.language K =
      Regex.decimalsWithin lo hi := by
  have fit := fit_decimals hsome ⟨hlo, hhi⟩ hne
  rw [Regex.Pattern.language_toSource, Regex.Pattern.language, fit.language]

/-- Bounds of numbers, one of which is there, have patterns that machine arithmetic finds without overflow. If
there is a source for them, it describes JSON numbers whose exact values are between the bounds. -/
theorem number_source_sound (hsome : lo ≠ none ∨ hi ≠ none) (hlo : Moderate lo) (hhi : Moderate hi) :
    Regex.decimalsOfWords? (lo.map Int64.ofInt) (hi.map Int64.ofInt) = some (Regex.decimalsBetween lo hi) ∧
    ∀ (l : Layout) (follow : String → Nat → Conversion Source) (depth : Nat) (path : String) (p p' : Progress)
      (source : Source), Conversion.Ran ((Schema.number lo hi).toSource l follow depth path) p source p' →
        ∀ (K : Meaning) (text : List Char), text ∈ source.language K → text ∈ Standard.number ∧
          ∃ d : Decimal, text = d.text ∧ (∀ b ∈ lo, (b : ℚ) ≤ d.value) ∧ ∀ b ∈ hi, d.value ≤ b := by
  obtain ⟨hlow, hlow'⟩ := hlo.word
  obtain ⟨hhigh, hhigh'⟩ := hhi.word
  constructor
  · rw [Regex.decimalsOfWords?_eq hlow' hhigh', hlow, hhigh]
  · intro l follow depth path p p' source hran K text htext
    rw [toSource_number l follow depth path hsome] at hran
    split at hran
    · exact absurd hran Conversion.ran_throw
    · rename_i hne
      obtain ⟨rfl, -⟩ := Conversion.ran_pure.1 hran
      rw [language_number hsome hlo hhi hne] at htext
      obtain ⟨d, hmatched, rfl⟩ := htext
      exact ⟨Regex.decimals_le_number (Regex.mem_decimals.2 ⟨d, rfl⟩), d, rfl, hmatched.between⟩

/-- A source of numbers from minus one on describes no number below that. -/
theorem fromMinusOne_sound : ∃ source, Conversion.Ran ((Schema.number (some (-1)) none).toSource
      (Layout.ofOptions .default) (fun _ _ => throw .referencesEndless) 0 "#") Conversion.start source Conversion.start ∧
    ∀ (K : Meaning) (text : List Char), text ∈ source.language K → ∃ d : Decimal, text = d.text ∧ -1 ≤ d.value := by
  have hsome : some (-1 : Int) ≠ none ∨ (none : Option Int) ≠ none := Or.inl (Option.some_ne_none _)
  have hne : Regex.decimalsBetween (some (-1)) none ≠ [] := by simp [Regex.decimalsBetween]
  have hran : Conversion.Ran ((Schema.number (some (-1)) none).toSource (Layout.ofOptions .default)
      (fun _ _ => throw .referencesEndless) 0 "#") Conversion.start
      (Regex.Pattern.sequence (Regex.oneOf (Regex.decimalsBetween (some (-1)) none))).toSource Conversion.start := by
    rw [toSource_number _ _ _ _ hsome, if_neg hne]
    exact Conversion.ran_pure.2 ⟨rfl, rfl⟩
  refine ⟨_, hran, fun K text htext => ?_⟩
  obtain ⟨-, d, hd, hlo, -⟩ := (number_source_sound hsome (by rintro _ ⟨⟩; decide) (by rintro _ ⟨⟩)).2 _ _ _ _ _ _ _ hran K text htext
  exact ⟨d, hd, by exact_mod_cast hlo (-1) rfl⟩

end

/-! ## Schemas of numbers between two bounds -/

/-- A whole bound that a schema allows itself, or does not. -/
structure Bound where
  exclusive : Bool
  limit : Int

namespace Bound

/-- The least integer that a lower bound allows. -/
def least (b : Bound) : Int := if b.exclusive then b.limit + 1 else b.limit

/-- The greatest integer that an upper bound allows. -/
def greatest (b : Bound) : Int := if b.exclusive then b.limit - 1 else b.limit

/-- A lower bound allows a value. -/
def AllowsAbove (b : Bound) (v : ℚ) : Prop := if b.exclusive then b.limit < v else b.limit ≤ v

/-- An upper bound allows a value. -/
def AllowsBelow (b : Bound) (v : ℚ) : Prop := if b.exclusive then v < b.limit else v ≤ b.limit

variable {b : Bound} {z : Int} {v : ℚ}

theorem allowsAbove_int : b.AllowsAbove z ↔ b.least ≤ z := by
  obtain ⟨_ | _, m⟩ := b <;> simp [AllowsAbove, least]

theorem allowsBelow_int : b.AllowsBelow z ↔ z ≤ b.greatest := by
  obtain ⟨_ | _, m⟩ := b <;> simp [AllowsBelow, greatest]

theorem allowsAbove_of_le (h : (b.least : ℚ) ≤ v) : b.AllowsAbove v := by
  obtain ⟨_ | _, m⟩ := b
  · simpa [AllowsAbove, least] using h
  · simp only [AllowsAbove, least, if_true, Int.cast_add, Int.cast_one] at h ⊢
    linarith

theorem allowsBelow_of_le (h : v ≤ (b.greatest : ℚ)) : b.AllowsBelow v := by
  obtain ⟨_ | _, m⟩ := b
  · simpa [AllowsBelow, greatest] using h
  · simp only [AllowsBelow, greatest, if_true, Int.cast_sub, Int.cast_one] at h ⊢
    linarith

end Bound

/-- The keywords of the schema of the numbers between two bounds. -/
def numberKeywords (lower upper : Bound) : List (String × Value) :=
  [("type", .string "number"),
    (if lower.exclusive then "exclusiveMinimum" else "minimum", .number (.int lower.limit)),
    (if upper.exclusive then "exclusiveMaximum" else "maximum", .number (.int upper.limit))]

/-- The schema of the numbers between two bounds. -/
def numberBetween (lower upper : Bound) : Value := .object (numberKeywords lower upper)

variable {lower upper : Bound} {strict : Bool}

/-- A keyword that is there with a bound of 53 bits is read exactly. -/
theorem boundUnder_keyword {members : List (String × Value)} {key : String} {z : Int} {present : Bool}
    (hz : z.natAbs ≤ 2 ^ 53)
    (hlookup : Value.lookup key members = if present then some (.number (.int z)) else none) :
    ∃ x, boundUnder members key = .ok x ∧ x.map floorOf = (if present then some z else none) ∧
      x.map ceilOf = if present then some z else none := by
  cases present with
  | false => exact ⟨none, by rw [boundUnder, hlookup]; rfl, rfl, rfl⟩
  | true =>
    have hlimit : 2 ^ 53 < boundLimit := by decide
    have hdouble : nearestDouble z.natAbs < boundLimit := (nearestDouble_of_le hz).trans_lt (by omega)
    obtain ⟨x, hx, hfloor, hceil⟩ := boundUnder_int (hlookup.trans (if_pos rfl)) (by omega) hdouble
    rw [nearestInteger_of_le hz] at hfloor hceil
    exact ⟨some x, hx, congrArg some hfloor, congrArg some hceil⟩

/-- Bounds of 53 bits are read exactly. -/
theorem ofValue_numberBetween (hlower : lower.limit.natAbs ≤ 2 ^ 53) (hupper : upper.limit.natAbs ≤ 2 ^ 53) :
    ofValue strict (numberBetween lower upper) = .number (some lower.least) (some upper.greatest) := by
  have hread : ofValue strict (numberBetween lower upper) = ofBounds (numberKeywords lower upper) false := by
    obtain ⟨_ | _, m⟩ := lower <;> obtain ⟨_ | _, n⟩ := upper <;>
      simp [numberBetween, numberKeywords, ofValue, ofMembers, ofType, Value.lookup]
  obtain ⟨hminimum, habove, hmaximum, hbelow⟩ :
      Value.lookup "minimum" (numberKeywords lower upper) =
        (if !lower.exclusive then some (.number (.int lower.limit)) else none) ∧
      Value.lookup "exclusiveMinimum" (numberKeywords lower upper) =
        (if lower.exclusive then some (.number (.int lower.limit)) else none) ∧
      Value.lookup "maximum" (numberKeywords lower upper) =
        (if !upper.exclusive then some (.number (.int upper.limit)) else none) ∧
      Value.lookup "exclusiveMaximum" (numberKeywords lower upper) =
        if upper.exclusive then some (.number (.int upper.limit)) else none := by
    obtain ⟨_ | _, m⟩ := lower <;> obtain ⟨_ | _, n⟩ := upper <;> simp [numberKeywords, Value.lookup]
  obtain ⟨minimum, hminimum, -, hminimum'⟩ := boundUnder_keyword hlower hminimum
  obtain ⟨above, habove, habove', -⟩ := boundUnder_keyword hlower habove
  obtain ⟨maximum, hmaximum, hmaximum', -⟩ := boundUnder_keyword hupper hmaximum
  obtain ⟨below, hbelow, -, hbelow'⟩ := boundUnder_keyword hupper hbelow
  have hleast : tighter max (minimum.map ceilOf) (above.map fun x => floorOf x + 1) = some lower.least := by
    have habove := congrArg (Option.map (· + 1)) habove'
    rw [Option.map_map] at habove
    rw [hminimum', show (above.map fun x => floorOf x + 1) = _ from habove, Bound.least]
    cases lower.exclusive <;> rfl
  have hgreatest : tighter min (maximum.map floorOf) (below.map fun x => ceilOf x - 1) = some upper.greatest := by
    have hbelow := congrArg (Option.map (· - 1)) hbelow'
    rw [Option.map_map] at hbelow
    rw [hmaximum', show (below.map fun x => ceilOf x - 1) = _ from hbelow, Bound.greatest]
    cases upper.exclusive <;> rfl
  have hbounds : wholeBounds (numberKeywords lower upper) = .ok (some lower.least, some upper.greatest) := by
    simp [wholeBounds, hminimum, habove, hmaximum, hbelow, hleast, hgreatest, bind, Except.bind, pure, Except.pure]
  simp [hread, ofBounds, hbounds]

theorem limited_numberBetween (lower upper : Bound) : Limited (numberBetween lower upper) := by
  refine limited_of_leaves (by simp [numberKeywords]) ?_
  simp only [numberKeywords, List.forall_mem_cons]
  exact ⟨by simp, by cases lower.exclusive <;> simp, by cases upper.exclusive <;> simp, nofun⟩

/-- A number that is matched is one that both bounds allow, unless it is a negative zero, or has a fraction and
a whole number next to it that the bounds do not allow. -/
theorem matched_iff {d : Decimal} : d.Matched (some lower.least) (some upper.greatest) ↔
    (lower.AllowsAbove d.value ∧ upper.AllowsBelow d.value) ∧ ¬ d.IsNegativeZero ∧
      (d.fraction ≠ [] → (lower.AllowsAbove d.truncated ∧ upper.AllowsBelow d.truncated) ∧
        lower.AllowsAbove d.beyond ∧ upper.AllowsBelow d.beyond) := by
  have within {z : Int} : Within (some lower.least) (some upper.greatest) z ↔
      lower.AllowsAbove z ∧ upper.AllowsBelow z := by
    rw [Bound.allowsAbove_int, Bound.allowsBelow_int]
    simp [Within]
  simp only [Decimal.Matched, within]
  constructor
  · rintro ⟨htruncated, hzero, hbeyond⟩
    have hbetween := Decimal.Matched.between ⟨within.2 htruncated, hzero, fun h => within.2 (hbeyond h)⟩
    exact ⟨⟨Bound.allowsAbove_of_le (hbetween.1 _ rfl), Bound.allowsBelow_of_le (hbetween.2 _ rfl)⟩, hzero,
      fun h => ⟨htruncated, hbeyond h⟩⟩
  · rintro ⟨hallowed, hzero, hbeyond⟩
    by_cases hnil : d.fraction = []
    · rw [Decimal.value_of_fraction_eq_nil hnil] at hallowed
      exact ⟨hallowed, hzero, fun h => absurd hnil h⟩
    · exact ⟨(hbeyond hnil).1, hzero, fun h => (hbeyond h).2⟩

/-- Bounds of 53 bits with an integer between them have productions. -/
theorem exists_productions_number {o : Options} (hlower : lower.limit.natAbs ≤ 2 ^ 53)
    (hupper : upper.limit.natAbs ≤ 2 ^ 53) (hle : lower.least ≤ upper.greatest) :
    ∃ ps, productions (numberBetween lower upper) o = .ok ps := by
  let source := (Regex.Pattern.sequence (Regex.oneOf
    (Regex.decimalsBetween (some lower.least) (some upper.greatest)))).toSource
  refine exists_productions_of_ran source (p := Conversion.start) ?_
  rw [ofValue_numberBetween hlower hupper, toSource_number _ _ _ _ (Or.inl (Option.some_ne_none _)),
    if_neg (decimalsBetween_ne_nil.2 hle)]
  exact Conversion.ran_pure.2 ⟨rfl, rfl⟩

theorem Bound.moderate {b : Bound} (h : b.limit.natAbs ≤ 2 ^ 53) : Moderate (some b.least) ∧ Moderate (some b.greatest) := by
  have hlimit : 2 ^ 53 + 1 ≤ boundLimit + 1 := by decide
  constructor
  · rintro _ ⟨⟩
    unfold Bound.least
    split <;> omega
  · rintro _ ⟨⟩
    unfold Bound.greatest
    split <;> omega

end ConstrainedDecoding.Schema

namespace ConstrainedDecoding.Grammar

open Schema
open Regex (Decimal)

variable {lower upper : Bound} {o : Options}

/-- A grammar for the numbers between two bounds describes those that the patterns between them match, and there
is an integer between the bounds. -/
theorem language_numberBetween {g : Grammar} (hlower : lower.limit.natAbs ≤ 2 ^ 53)
    (hupper : upper.limit.natAbs ≤ 2 ^ 53) (hg : ofSchema (numberBetween lower upper) o = .ok g) :
    lower.least ≤ upper.greatest ∧
      g.language = Utf8.encoded (Regex.decimalsWithin (some lower.least) (some upper.greatest)) := by
  obtain ⟨p, root, ps, hconverted, hlanguage⟩ := language_of_ofSchema hg
  have hsource := hconverted.source
  rw [ofValue_numberBetween hlower hupper, source?] at hsource
  · split at hsource
    · cases hsource
    · rename_i hne
      obtain rfl := Option.some.inj hsource
      rw [language_number (Or.inl (Option.some_ne_none _)) (Bound.moderate hlower).1 (Bound.moderate hupper).2 hne] at hlanguage
      exact ⟨decimalsBetween_ne_nil.1 hne, hlanguage⟩
  · rintro _ ⟨⟩

/-- A schema of numbers between two whole bounds has a grammar exactly if an integer is between them and the
longest run of white space can be written. What it accepts is the text of a number, and a number is accepted
exactly if both bounds allow it, it is no negative zero, and it has no fraction or the bounds also allow the
whole numbers on both sides of it. -/
theorem numberBetween_misses_fractions (hlower : lower.limit.natAbs ≤ 2 ^ 53)
    (hupper : upper.limit.natAbs ≤ 2 ^ 53) :
    ((∃ g, ofSchema (numberBetween lower upper) o = .ok g) ↔ o.Limited ∧ lower.least ≤ upper.greatest) ∧
    ∀ g, ofSchema (numberBetween lower upper) o = .ok g →
      (∀ w ∈ g.language, ∃ d : Decimal, w = Utf8.encode d.text) ∧
      ∀ d : Decimal, Utf8.encode d.text ∈ g.language ↔
        (lower.AllowsAbove d.value ∧ upper.AllowsBelow d.value) ∧ ¬ d.IsNegativeZero ∧
          (d.fraction ≠ [] → (lower.AllowsAbove d.truncated ∧ upper.AllowsBelow d.truncated) ∧
            lower.AllowsAbove d.beyond ∧ upper.AllowsBelow d.beyond) := by
  refine ⟨⟨?_, fun ⟨ho, hle⟩ => ?_⟩, fun g hg => ⟨?_, fun d => ?_⟩⟩
  · rintro ⟨g, hg⟩
    obtain ⟨_, _, _, hconverted, -⟩ := language_of_ofSchema hg
    exact ⟨hconverted.limited, (language_numberBetween hlower hupper hg).1⟩
  · obtain ⟨ps, hps⟩ := exists_productions_number hlower hupper hle
    exact exists_ofSchema (limited_numberBetween lower upper) ho hps
  · rw [(language_numberBetween hlower hupper hg).2]
    rintro _ ⟨_, ⟨d, -, rfl⟩, rfl⟩
    exact ⟨d, rfl⟩
  · rw [(language_numberBetween hlower hupper hg).2, Utf8.encode_mem_encoded, ← matched_iff]
    constructor
    · rintro ⟨d', hmatched, heq⟩
      exact Decimal.text_injective heq ▸ hmatched
    · exact fun h => ⟨d, h, rfl⟩

/-- Above zero and up to ten, a fraction is accepted if it is above one. -/
theorem upToTen_accepts : ∃ g, ofSchema (numberBetween ⟨true, 0⟩ ⟨false, 10⟩) .default = .ok g ∧
    Utf8.ofString "1.5" ∈ g.language ∧ Utf8.ofString "10.5" ∉ g.language := by
  obtain ⟨hexists, hmem⟩ := numberBetween_misses_fractions (o := .default)
    (show (⟨true, 0⟩ : Bound).limit.natAbs ≤ 2 ^ 53 by decide) (show (⟨false, 10⟩ : Bound).limit.natAbs ≤ 2 ^ 53 by decide)
  obtain ⟨g, hg⟩ := hexists.2 ⟨limited_default, by decide⟩
  have half (n : Nat) : (⟨false, n, ['5'], by simp [Regex.AllDigits]⟩ : Decimal).value = n + 1 / 2 := by
    simp [Decimal.value, Decimal.magnitude, show Regex.decimal ['5'] = 5 from rfl]
    norm_num
  have mem (n : Nat) := (hmem g hg).2 ⟨false, n, ['5'], by simp [Regex.AllDigits]⟩
  refine ⟨g, hg, (mem 1).2 ?_, fun h => ?_⟩
  · rw [half]
    simp [Bound.AllowsAbove, Bound.AllowsBelow, Decimal.IsNegativeZero, Decimal.truncated, Decimal.beyond]
    norm_num
  · have := ((mem 10).1 h).1.2
    rw [half] at this
    simp [Bound.AllowsBelow] at this
    norm_num at this

/-- Above zero and up to ten, a half is allowed, but it is not accepted. -/
theorem upToTen_misses_half : ∃ g, ofSchema (numberBetween ⟨true, 0⟩ ⟨false, 10⟩) .default = .ok g ∧
    ∃ d : Decimal, d.text = "0.5".toList ∧ d.value = 1 / 2 ∧ Utf8.encode d.text ∉ g.language := by
  have hlower : (⟨true, 0⟩ : Bound).limit.natAbs ≤ 2 ^ 53 := by decide
  have hupper : (⟨false, 10⟩ : Bound).limit.natAbs ≤ 2 ^ 53 := by decide
  obtain ⟨ps, hps⟩ := exists_productions_number (o := .default) hlower hupper (by decide)
  obtain ⟨g, hg⟩ := exists_ofSchema (limited_numberBetween _ _) limited_default hps
  refine ⟨g, hg, ⟨false, 0, ['5'], by simp [Regex.AllDigits]⟩, by decide, ?_, fun h => ?_⟩
  · simp [Decimal.value, Decimal.magnitude, show Regex.decimal ['5'] = 5 from rfl]
    norm_num
  · rw [(language_numberBetween hlower hupper hg).2, Utf8.encode_mem_encoded] at h
    obtain ⟨d, hmatched, heq⟩ := h
    obtain rfl := Decimal.text_injective heq
    -- the whole part is zero, which the lower bound does not allow
    exact absurd (hmatched.1.1 _ rfl) (by decide)

end ConstrainedDecoding.Grammar
