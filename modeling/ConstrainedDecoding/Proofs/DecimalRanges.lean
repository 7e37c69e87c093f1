import ConstrainedDecoding.Proofs.IntegerRanges

/-!
# Patterns for ranges of numbers

The patterns between two bounds match the whole numbers between them, and the fractions such that the
whole numbers on both sides of them are between the bounds. So what they match has a value between the
bounds, but not everything that has one is matched.
-/
namespace ConstrainedDecoding.Regex

open Computability Pattern
open Json (Standard.natural Standard.number Standard.digits Standard.digit Standard.optional)

variable {ps : List Pattern} {K : Language Char} {lo hi : Option Int}

/-! ## Numbers without an exponent -/

theorem numerals_true : numerals (fun _ => True) = Standard.natural := by
  have nonzero : {c : Char | '1' ≤ c ∧ c ≤ '9'} = {c | c.isDigit = true ∧ 1 ≤ digitOf c ∧ digitOf c ≤ 9} := by
    ext c
    simp only [Set.mem_ofPred_eq, isDigit_iff, digitOf, Char.le_def, UInt32.le_iff_toNat_le]
    change 49 ≤ c.toNat ∧ c.toNat ≤ 57 ↔ _
    omega
  have positive := nonzero_mul_copies 0
  rw [Language.copies_star] at positive
  rw [Standard.natural, Standard.digit, nonzero, positive, Nat.pow_zero]
  ext text
  rw [Language.mem_add]
  constructor
  · rintro ⟨n, -, rfl⟩
    rcases Nat.eq_zero_or_pos n with rfl | hn
    · exact Or.inl rfl
    · exact Or.inr ⟨n, hn, rfl⟩
  · rintro (rfl | ⟨n, -, rfl⟩)
    · exact ⟨0, trivial, rfl⟩
    · exact ⟨n, trivial, rfl⟩

theorem numerals_le_natural (P : Nat → Prop) : numerals P ≤ Standard.natural := by
  rw [← numerals_true]
  rintro _ ⟨n, -, rfl⟩
  exact ⟨n, trivial, rfl⟩

/-- One or more digits. -/
theorem mem_digits {text : List Char} : text ∈ Standard.digits ↔ text ≠ [] ∧ AllDigits text := by
  have := copies_digit 1
  rw [Language.copies_plus] at this
  rw [Standard.digits, Standard.digit, this]
  exact and_congr_left' List.length_pos_iff

/-- The texts of numbers without an exponent. -/
def decimals : Language Char :=
  Standard.optional {['-']} * Standard.natural * Standard.optional ({['.']} * Standard.digits)

theorem decimals_le_number : decimals ≤ Standard.number := by
  rw [decimals, Standard.number]
  exact le_mul_of_one_le_right' (le_add_right le_rfl)

/-- A number without an exponent: a sign, a whole part, and the digits after the point. There is no point if
there are no digits after it. -/
structure Decimal where
  negative : Bool
  whole : Nat
  fraction : List Char
  digits : AllDigits fraction

namespace Decimal

variable (d : Decimal)

/-- The text of a number. -/
def text : List Char :=
  (if d.negative then ['-'] else []) ++
    (Nat.toDigits 10 d.whole ++ if d.fraction = [] then [] else '.' :: d.fraction)

/-- The value without the sign. -/
def magnitude : ℚ := d.whole + decimal d.fraction / 10 ^ d.fraction.length

/-- The exact value of a number. -/
def value : ℚ := if d.negative then -d.magnitude else d.magnitude

/-- The whole part with the sign. -/
def truncated : Int := if d.negative then -d.whole else d.whole

/-- The whole number next to the whole part, away from zero. -/
def beyond : Int := if d.negative then -(d.whole + 1) else d.whole + 1

/-- A whole zero with a minus sign. -/
def IsNegativeZero : Prop := d.negative = true ∧ d.whole = 0 ∧ d.fraction = []

variable {d}

theorem magnitude_bounds : d.whole ≤ d.magnitude ∧ d.magnitude < d.whole + 1 := by
  have hlt : (decimal d.fraction : ℚ) < 10 ^ d.fraction.length := by exact_mod_cast decimal_lt d.digits
  have hpos : (0 : ℚ) < 10 ^ d.fraction.length := by positivity
  have hfraction : (decimal d.fraction : ℚ) / 10 ^ d.fraction.length < 1 := (div_lt_one hpos).2 hlt
  have hnonneg : (0 : ℚ) ≤ decimal d.fraction / 10 ^ d.fraction.length := by positivity
  rw [magnitude]
  constructor <;> linarith

/-- Without digits after the point, the value is the whole part. -/
theorem value_of_fraction_eq_nil (h : d.fraction = []) : d.value = d.truncated := by
  rw [value, truncated, magnitude, h]
  split <;> simp [decimal]

/-- The value is between the whole numbers on both sides of it. -/
theorem value_bounds : ((min d.truncated d.beyond : Int) : ℚ) ≤ d.value ∧ d.value ≤ (max d.truncated d.beyond : Int) := by
  obtain ⟨hwhole, hlt⟩ := d.magnitude_bounds
  unfold value truncated beyond
  cases d.negative with
  | false =>
    have : (d.whole : Int) ≤ d.whole + 1 := by omega
    simp only [Bool.false_eq_true, if_false, min_eq_left this, max_eq_right this]
    push_cast
    constructor <;> linarith
  | true =>
    have : -((d.whole : Int) + 1) ≤ -(d.whole : Int) := by omega
    simp only [if_true, min_eq_right this, max_eq_left this]
    push_cast
    constructor <;> linarith

/-- A value is between two bounds, each of which may be absent. -/
def Between (lo hi : Option Int) (d : Decimal) : Prop := (∀ l ∈ lo, (l : ℚ) ≤ d.value) ∧ ∀ h ∈ hi, d.value ≤ h

/-- The patterns between two bounds match the number: its whole part is between them and it is not a negative
zero, or it has a fraction and the whole numbers on both sides of it are between them. -/
def Matched (lo hi : Option Int) (d : Decimal) : Prop :=
  Within lo hi d.truncated ∧ ¬ d.IsNegativeZero ∧ (d.fraction ≠ [] → Within lo hi d.beyond)

theorem Matched.between (h : d.Matched lo hi) : d.Between lo hi := by
  obtain ⟨hwithin, -, hfraction⟩ := h
  by_cases hnil : d.fraction = []
  · rw [Between, value_of_fraction_eq_nil hnil]
    exact ⟨fun l hl => by exact_mod_cast hwithin.1 l hl, fun h hh => by exact_mod_cast hwithin.2 h hh⟩
  · have hbeyond := hfraction hnil
    obtain ⟨hmin, hmax⟩ := d.value_bounds
    refine ⟨fun l hl => le_trans ?_ hmin, fun h hh => hmax.trans ?_⟩
    · exact_mod_cast le_min (hwithin.1 l hl) (hbeyond.1 l hl)
    · exact_mod_cast max_le (hwithin.2 h hh) (hbeyond.2 h hh)

/-! ### Texts -/

theorem toDigits_eq_cons (n : Nat) : ∃ c cs, Nat.toDigits 10 n = c :: cs ∧ c.isDigit = true := by
  match hdigits : Nat.toDigits 10 n with
  | [] => exact absurd hdigits (List.length_pos_iff.1 Nat.length_toDigits_pos)
  | c :: cs => exact ⟨c, cs, rfl, allDigits_toDigits n c (hdigits ▸ List.mem_cons_self)⟩

/-- Digits are told from what follows them if that does not start with a digit. -/
theorem append_digits_inj {ds ds' rest rest' : List Char} (hds : AllDigits ds) (hds' : AllDigits ds')
    (hrest : ∀ c ∈ rest.head?, c.isDigit = false) (hrest' : ∀ c ∈ rest'.head?, c.isDigit = false)
    (h : ds ++ rest = ds' ++ rest') : ds = ds' ∧ rest = rest' := by
  have taken {ds rest : List Char} (hds : AllDigits ds) (hrest : ∀ c ∈ rest.head?, c.isDigit = false) :
      (ds ++ rest).takeWhile Char.isDigit = ds := by
    rw [List.takeWhile_append_of_pos hds]
    cases rest with
    | nil => simp
    | cons c rest => simp [hrest c rfl]
  have heq : ds = ds' := (taken hds hrest).symm.trans ((congrArg _ h).trans (taken hds' hrest'))
  exact ⟨heq, List.append_cancel_left (heq ▸ h)⟩

/-- The text tells the number. -/
theorem text_injective : Function.Injective text := by
  rintro ⟨negative, whole, fraction, hdigits⟩ ⟨negative', whole', fraction', hdigits'⟩ h
  have point (fraction : List Char) :
      ∀ c ∈ (if fraction = [] then [] else '.' :: fraction).head?, c.isDigit = false := by
    split
    · nofun
    · rintro _ ⟨⟩
      rfl
  have unsigned {whole whole' : Nat} {fraction fraction' : List Char}
      (h : Nat.toDigits 10 whole ++ (if fraction = [] then [] else '.' :: fraction) =
        Nat.toDigits 10 whole' ++ if fraction' = [] then [] else '.' :: fraction') :
      whole = whole' ∧ fraction = fraction' := by
    obtain ⟨hwhole, hfraction⟩ := append_digits_inj (allDigits_toDigits whole) (allDigits_toDigits whole')
      (point fraction) (point fraction') h
    refine ⟨?_, ?_⟩
    · rw [← decimal_toDigits whole, hwhole, decimal_toDigits]
    · by_cases hnil : fraction = [] <;> by_cases hnil' : fraction' = [] <;> simp_all
  have sign {whole whole' : Nat} {rest rest' : List Char} :
      '-' :: (Nat.toDigits 10 whole ++ rest) ≠ Nat.toDigits 10 whole' ++ rest' := by
    obtain ⟨c, cs, heq, hc⟩ := toDigits_eq_cons whole'
    rw [heq]
    intro h
    obtain ⟨rfl, -⟩ := List.cons.inj h
    cases hc
  cases negative <;> cases negative'
  · obtain ⟨rfl, rfl⟩ := unsigned h
    rfl
  · exact absurd h.symm sign
  · exact absurd h sign
  · obtain ⟨rfl, rfl⟩ := unsigned (List.cons.inj h).2
    rfl

end Decimal

/-! ## Languages of decimals -/

theorem mem_point {text : List Char} : text ∈ ({['.']} : Language Char) * Standard.digits ↔
    ∃ ds, ds ≠ [] ∧ AllDigits ds ∧ text = '.' :: ds := by
  simp only [Language.mem_singleton_mul, mem_digits, and_assoc, List.singleton_append]

/-- Numbers without an exponent are decimals. -/
theorem mem_decimals {text : List Char} : text ∈ decimals ↔ ∃ d : Decimal, text = d.text := by
  have natural (n : Nat) : Nat.toDigits 10 n ∈ Standard.natural := numerals_le_natural (fun _ => True) ⟨n, trivial, rfl⟩
  constructor
  · rintro ⟨_, ⟨sign, hsign, whole, hwhole, rfl⟩, point, hpoint, rfl⟩
    rw [← numerals_true] at hwhole
    obtain ⟨n, -, rfl⟩ := hwhole
    obtain ⟨negative, rfl⟩ : ∃ negative : Bool, sign = if negative then ['-'] else [] := by
      rcases hsign with rfl | rfl
      · exact ⟨false, rfl⟩
      · exact ⟨true, rfl⟩
    rcases hpoint with rfl | hpoint
    · exact ⟨⟨negative, n, [], List.forall_mem_nil _⟩, by simp [Decimal.text]⟩
    · obtain ⟨ds, hne, hds, rfl⟩ := mem_point.1 hpoint
      exact ⟨⟨negative, n, ds, hds⟩, by simp [Decimal.text, hne]⟩
  · rintro ⟨⟨negative, n, ds, hds⟩, rfl⟩
    refine ⟨_, ⟨if negative then ['-'] else [], ?_, _, natural n, rfl⟩, if ds = [] then [] else '.' :: ds, ?_,
      by simp [Decimal.text]⟩
    · cases negative
      · exact Or.inl rfl
      · exact Or.inr rfl
    · split
      · exact Or.inl rfl
      · rename_i hne
        exact Or.inr (mem_point.2 ⟨ds, hne, hds, rfl⟩)

/-- The texts of fractions without a sign whose whole part has a property. -/
def fractions (P : Nat → Prop) : Language Char := numerals P * ({['.']} * Standard.digits)

theorem fractions_congr {P Q : Nat → Prop} (h : ∀ n, P n ↔ Q n) : fractions P = fractions Q := by
  rw [fractions, numerals_congr h, fractions]

theorem mem_fractions {P : Nat → Prop} {text : List Char} : text ∈ fractions P ↔
    ∃ n ds, P n ∧ ds ≠ [] ∧ AllDigits ds ∧ text = Nat.toDigits 10 n ++ '.' :: ds := by
  constructor
  · rintro ⟨_, ⟨n, hn, rfl⟩, _, hpoint, rfl⟩
    obtain ⟨ds, hne, hds, rfl⟩ := mem_point.1 hpoint
    exact ⟨n, ds, hn, hne, hds, rfl⟩
  · rintro ⟨n, ds, hn, hne, hds, rfl⟩
    exact ⟨_, ⟨n, hn, rfl⟩, _, mem_point.2 ⟨ds, hne, hds, rfl⟩, rfl⟩

/-- The texts of the numbers that the patterns between two bounds match. -/
def decimalsWithin (lo hi : Option Int) : Language Char := {text | ∃ d : Decimal, d.Matched lo hi ∧ text = d.text}

/-- The numbers by their sign and whether they have a fraction. -/
theorem decimalsWithin_eq (lo hi : Option Int) : decimalsWithin lo hi = signed (Within lo hi) +
    (fractions (fun n => Within lo hi n ∧ Within lo hi (n + 1)) +
      {['-']} * fractions fun n => Within lo hi (-n) ∧ Within lo hi (-(n + 1))) := by
  ext text
  rw [Language.mem_add, Language.mem_add, Language.mem_singleton_mul, signed, Language.mem_add,
    Language.mem_singleton_mul]
  simp only [mem_fractions, mem_numerals]
  constructor
  · rintro ⟨⟨negative, n, ds, hds⟩, ⟨hwithin, hzero, hfraction⟩, rfl⟩
    cases negative <;> by_cases hnil : ds = []
    · subst hnil
      exact Or.inl (Or.inl ⟨n, hwithin, by simp [Decimal.text]⟩)
    · exact Or.inr (Or.inl ⟨n, ds, ⟨hwithin, hfraction hnil⟩, hnil, hds, by simp [Decimal.text, hnil]⟩)
    · subst hnil
      have hpos : 0 < n := Nat.pos_of_ne_zero fun h => hzero ⟨rfl, h, rfl⟩
      exact Or.inl (Or.inr ⟨_, ⟨n, ⟨hpos, hwithin⟩, rfl⟩, by simp [Decimal.text]⟩)
    · exact Or.inr (Or.inr ⟨_, ⟨n, ds, ⟨hwithin, hfraction hnil⟩, hnil, hds, rfl⟩, by simp [Decimal.text, hnil]⟩)
  · rintro ((⟨n, hn, rfl⟩ | ⟨_, ⟨n, ⟨hpos, hn⟩, rfl⟩, rfl⟩) | ⟨n, ds, ⟨hn, hn'⟩, hne, hds, rfl⟩ |
      ⟨_, ⟨n, ds, ⟨hn, hn'⟩, hne, hds, rfl⟩, rfl⟩)
    · exact ⟨⟨false, n, [], List.forall_mem_nil _⟩, ⟨hn, by simp [Decimal.IsNegativeZero], by simp⟩,
        by simp [Decimal.text]⟩
    · exact ⟨⟨true, n, [], List.forall_mem_nil _⟩, ⟨hn, by simp [Decimal.IsNegativeZero]; omega, by simp⟩,
        by simp [Decimal.text]⟩
    · exact ⟨⟨false, n, ds, hds⟩, ⟨hn, by simp [Decimal.IsNegativeZero], fun _ => hn'⟩, by simp [Decimal.text, hne]⟩
    · exact ⟨⟨true, n, ds, hds⟩, ⟨hn, by simp [Decimal.IsNegativeZero, hne], fun _ => hn'⟩, by simp [Decimal.text, hne]⟩

/-! ## The alternatives between two bounds -/

theorem fit_fraction : Fit fraction ({['.']} * Standard.digits) := by
  refine (fit_singleton (.quantified wellFormed_anyDigit ?_) ?_).char '.'
  · exact Ebnf.Quantifier.fits_plus
  · rw [Pattern.language, language_anyDigit]
    exact Language.copies_plus _

/-- Fractions whose whole part is between two bounds. -/
theorem fit_fractions {k : Nat} (most : Option Int) (hle : ∀ h ∈ most, (k : Int) ≤ h) (hk : Countable k)
    (hmost : ∀ h ∈ most, Countable h) :
    Fit (integersBetween (some (k : Int)) most ++ fraction) (fractions fun n => Within (some (k : Int)) most n) := by
  have fit : Fit (integersBetween (some (k : Int)) most) (signed (Within (some (k : Int)) most)) :=
    fit_integersBetween (Or.inl nofun) (by rintro _ ⟨⟩; exact hle) (by rintro _ ⟨⟩; exact hk) hmost
  have unsigned : signed (Within (some (k : Int)) most) = numerals fun n => Within (some (k : Int)) most n := by
    rw [signed_eq (R := fun _ => False) (fun _ => Iff.rfl), numerals_false (P := fun _ => False) fun _ h => h,
      mul_zero, add_zero]
    rintro n
    refine iff_of_false (fun h => ?_) not_false
    have := h.2.1 k rfl
    omega
  rw [unsigned] at fit
  exact fit.append fit_fraction

/-- The least whole part of a fraction that is not below a bound. -/
def leastWhole (lo : Option Int) : Int := (lo.map (max 0)).getD 0

/-- The least magnitude of the whole part of a negative fraction that is not above a bound. -/
def leastMagnitude (hi : Option Int) : Int := (hi.map fun h => max (-h) 1).getD 1

/-- The alternatives between two bounds: whole numbers, and fractions above zero, next below zero, and further
below. -/
theorem mem_decimalsBetween : ps ∈ decimalsBetween lo hi ↔
    ((∀ l ∈ lo, ∀ h ∈ hi, l ≤ h) ∧ ps = integersBetween lo hi) ∨
    ((∀ h ∈ hi, leastWhole lo ≤ h - 1) ∧
      ps = integersBetween (some (leastWhole lo)) (hi.map (· - 1)) ++ fraction) ∨
    (((∀ l ∈ lo, l ≤ -1) ∧ ∀ h ∈ hi, 0 ≤ h) ∧ ps = .char '-' :: .char '0' :: fraction) ∨
    ((∀ l ∈ lo, leastMagnitude hi ≤ -l - 1) ∧
      ps = negative (integersBetween (some (leastMagnitude hi)) (lo.map fun l => -l - 1) ++ fraction)) := by
  rcases lo with _ | lo <;> rcases hi with _ | hi <;>
    simp only [decimalsBetween, leastWhole, leastMagnitude, Option.map_none, Option.map_some, Option.getD_none,
      Option.getD_some, decide_eq_true_eq, List.mem_append, List.mem_ite_nil_right, List.mem_singleton, if_true,
      and_true, true_and, Option.mem_def, reduceCtorEq, false_imp_iff, implies_true, Option.some.injEq, forall_eq',
      or_assoc]

/-- The digits of the numbers next to a bound can be counted. -/
def NearCountable (bound : Option Int) : Prop := ∀ z ∈ bound, digitCount (z.natAbs + 1) ≤ digitLimit

theorem NearCountable.countable {bound : Option Int} (h : NearCountable bound) {y z : Int} (hz : z ∈ bound)
    (hy : y.natAbs ≤ z.natAbs + 1) : Countable y := (digitCount_mono hy).trans (h z hz)

section

variable (hlo : NearCountable lo) (hhi : NearCountable hi)

include hlo hhi

/-- The fractions above zero are those between two bounds. -/
theorem fit_above_zero (hle : ∀ h ∈ hi, leastWhole lo ≤ h - 1) :
    Fit (integersBetween (some (leastWhole lo)) (hi.map (· - 1)) ++ fraction)
      (fractions fun n => Within lo hi n ∧ Within lo hi (n + 1)) := by
  have hnonneg : 0 ≤ leastWhole lo := by cases lo <;> simp [leastWhole]
  obtain ⟨k, hk⟩ := Int.eq_ofNat_of_zero_le hnonneg
  have hcount : Countable k := by
    cases lo with
    | none =>
      obtain rfl : k = 0 := by simpa [leastWhole, eq_comm] using hk
      exact show digitCount 0 ≤ digitLimit by decide
    | some l => exact hlo.countable (z := l) rfl (by simp [leastWhole] at hk; omega)
  rw [hk] at hle ⊢
  have fit := fit_fractions (k := k) (hi.map (· - 1)) (by simpa using hle) hcount
    (by simpa using fun h hh => hhi.countable (y := h - 1) hh (by omega))
  convert fit using 1
  refine fractions_congr fun n => ?_
  rcases lo with _ | l <;> rcases hi with _ | h <;> simp [leastWhole] at hk <;> simp [Within] <;> omega

/-- The fractions further below zero are those between two bounds whose whole part is not zero. -/
theorem fit_below_zero (hle : ∀ l ∈ lo, leastMagnitude hi ≤ -l - 1) :
    Fit (negative (integersBetween (some (leastMagnitude hi)) (lo.map fun l => -l - 1) ++ fraction))
      ({['-']} * fractions fun n => 0 < n ∧ Within lo hi (-n) ∧ Within lo hi (-(n + 1))) := by
  have hpos : 1 ≤ leastMagnitude hi := by cases hi <;> simp [leastMagnitude]
  obtain ⟨k, hk⟩ := Int.eq_ofNat_of_zero_le (by omega : 0 ≤ leastMagnitude hi)
  have hcount : Countable k := by
    cases hi with
    | none =>
      obtain rfl : k = 1 := by simp [leastMagnitude] at hk; omega
      exact show digitCount 1 ≤ digitLimit by decide
    | some h => exact hhi.countable (z := h) rfl (by simp [leastMagnitude] at hk; omega)
  rw [hk] at hle ⊢
  have fit := fit_fractions (k := k) (lo.map fun l => -l - 1) (by simpa using hle) hcount
    (by simpa using fun l hl => hlo.countable (y := -l - 1) hl (by omega))
  refine fit_negative ?_
  convert fit using 1
  refine fractions_congr fun n => ?_
  rcases lo with _ | l <;> rcases hi with _ | h <;> simp [leastMagnitude] at hk <;> simp [Within] <;> omega

end

/-- The fractions next below zero. -/
theorem fit_near_zero : Fit (.char '-' :: .char '0' :: fraction) ({['-']} * fractions fun n => n = 0) := by
  have zero : numerals (fun n => n = 0) = {['0']} := by
    ext text
    rw [mem_numerals]
    simp only [exists_eq_left]
    rfl
  rw [fractions, zero]
  exact (fit_fraction.char '0').char '-'

/-- An alternative between two bounds matches numbers that are between them together with the whole numbers
on both sides of them. -/
theorem fit_alternative (hsome : lo ≠ none ∨ hi ≠ none) (hlo : NearCountable lo) (hhi : NearCountable hi)
    (h : ps ∈ decimalsBetween lo hi) : ∃ K ≤ decimalsWithin lo hi, Fit ps K := by
  have part {K : Language Char} {P Q : Nat → Prop} (h : ∀ n, P n → Q n)
      (hle : {['-']} * fractions Q ≤ K) : {['-']} * fractions P ≤ K := by
    refine le_trans (mul_le_mul' le_rfl fun text htext => ?_) hle
    obtain ⟨n, ds, hn, hds⟩ := mem_fractions.1 htext
    exact mem_fractions.2 ⟨n, ds, h n hn, hds⟩
  rw [decimalsWithin_eq]
  rcases mem_decimalsBetween.1 h with ⟨hle, rfl⟩ | ⟨hle, rfl⟩ | ⟨⟨hl, hh⟩, rfl⟩ | ⟨hle, rfl⟩
  · exact ⟨_, le_add_right le_rfl, fit_integersBetween hsome hle (fun l hl => hlo.countable hl (Nat.le_succ _))
      fun h hh => hhi.countable hh (Nat.le_succ _)⟩
  · exact ⟨_, le_add_left (le_add_right le_rfl), fit_above_zero hlo hhi hle⟩
  · refine ⟨_, part ?_ (le_add_left (le_add_left le_rfl)), fit_near_zero⟩
    rintro n rfl
    exact ⟨⟨fun l h => (hl l h).trans (by decide), fun h h' => hh h h'⟩, fun l h => hl l h,
      fun h h' => le_trans (by decide) (hh h h')⟩
  · exact ⟨_, part (fun n hn => hn.2) (le_add_left (le_add_left le_rfl)), fit_below_zero hlo hhi hle⟩

/-- One of the alternatives between two bounds matches such a number. -/
theorem exists_alternative (hsome : lo ≠ none ∨ hi ≠ none) (hlo : NearCountable lo) (hhi : NearCountable hi)
    {text : List Char} (h : text ∈ decimalsWithin lo hi) :
    ∃ ps ∈ decimalsBetween lo hi, text ∈ sequenceLanguage ps := by
  have matched {ps : List Pattern} {K : Language Char} (hfit : Fit ps K) (h : text ∈ K) : text ∈ sequenceLanguage ps :=
    hfit.language ▸ h
  rw [decimalsWithin_eq, Language.mem_add, Language.mem_add] at h
  rcases h with h | h | ⟨_, rfl, rest, hrest, rfl⟩
  · obtain ⟨z, hz⟩ : ∃ z, Within lo hi z := by
      rcases h with ⟨n, hn, -⟩ | ⟨_, -, _, ⟨n, ⟨-, hn⟩, -⟩, -⟩ <;> exact ⟨_, hn⟩
    have hle : ∀ l ∈ lo, ∀ h ∈ hi, l ≤ h := fun l hl h hh => (hz.1 l hl).trans (hz.2 h hh)
    exact ⟨_, mem_decimalsBetween.2 (Or.inl ⟨hle, rfl⟩), matched (fit_integersBetween hsome hle
      (fun l hl => hlo.countable hl (Nat.le_succ _)) fun h hh => hhi.countable hh (Nat.le_succ _)) h⟩
  · obtain ⟨n, ds, ⟨hn, hn'⟩, -⟩ := mem_fractions.1 h
    have hle : ∀ h ∈ hi, leastWhole lo ≤ h - 1 := by
      intro h hh
      have := hn'.2 h hh
      cases lo with
      | none => simp [leastWhole]; omega
      | some l =>
        have := hn.1 l rfl
        simp [leastWhole]
        omega
    exact ⟨_, mem_decimalsBetween.2 (Or.inr (Or.inl ⟨hle, rfl⟩)), matched (fit_above_zero hlo hhi hle) h⟩
  · obtain ⟨n, ds, ⟨hn, hn'⟩, hds⟩ := mem_fractions.1 hrest
    rcases Nat.eq_zero_or_pos n with rfl | hpos
    · refine ⟨_, mem_decimalsBetween.2 (Or.inr (Or.inr (Or.inl ⟨⟨fun l hl => by simpa using hn'.1 l hl,
        fun h hh => by simpa using hn.2 h hh⟩, rfl⟩))), matched fit_near_zero ?_⟩
      exact ⟨_, rfl, rest, mem_fractions.2 ⟨0, ds, rfl, hds⟩, rfl⟩
    · have hle : ∀ l ∈ lo, leastMagnitude hi ≤ -l - 1 := by
        intro l hl
        have := hn'.1 l hl
        cases hi with
        | none => simp [leastMagnitude]; omega
        | some h =>
          have := hn.2 h rfl
          simp [leastMagnitude]
          omega
      refine ⟨_, mem_decimalsBetween.2 (Or.inr (Or.inr (Or.inr ⟨hle, rfl⟩))), matched (fit_below_zero hlo hhi hle) ?_⟩
      exact ⟨_, rfl, rest, mem_fractions.2 ⟨n, ds, ⟨hpos, hn, hn'⟩, hds⟩, rfl⟩

/-- The patterns between two bounds match the numbers without an exponent that are between them together with
the whole numbers on both sides of them. -/
theorem fit_decimalsBetween (hsome : lo ≠ none ∨ hi ≠ none) (hlo : NearCountable lo) (hhi : NearCountable hi)
    (hne : decimalsBetween lo hi ≠ []) : Fit (oneOf (decimalsBetween lo hi)) (decimalsWithin lo hi) := by
  obtain ⟨L, hle, hfit⟩ := exists_fit_oneOf hne fun ps hps => fit_alternative hsome hlo hhi hps
  suffices decimalsWithin lo hi ≤ L from le_antisymm hle this ▸ hfit
  intro text htext
  obtain ⟨ps, hps, hmem⟩ := exists_alternative hsome hlo hhi htext
  rw [← hfit.language]
  exact sequenceLanguage_le_oneOf hps hmem

end ConstrainedDecoding.Regex
