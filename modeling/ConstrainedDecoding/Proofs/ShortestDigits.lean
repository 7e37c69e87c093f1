import ConstrainedDecoding.Proofs.Rounding
import Mathlib.Data.Rat.Cast.Order
import Mathlib.Tactic.FieldSimp
import Mathlib.Tactic.Linarith
import Mathlib.Tactic.NormNum
import Mathlib.Tactic.Positivity
import Mathlib.Tactic.Ring

/-!
# Shortest digits of doubles

What a quotient is rounded to has at most 53 bits, and a last place that is not too small. Seventeen places
after the first digit of such a double, the decimals are closer to each other than the doubles are. So some
decimal rounds to the double, and the shortest digits of a double that is not zero are not zero.
-/
namespace ConstrainedDecoding

/-- The bounds of the magnitudes of doubles that matter for their digits. -/
structure Magnitude.IsDouble (x : Magnitude) : Prop where
  mantissa_lt : x.mantissa < 2 ^ 53
  exponent_ge : -1074 ≤ x.exponent

/-- The last place of a magnitude is a quotient of powers of two, and the magnitude a multiple of it. -/
theorem Magnitude.exists_toRatio (x : Magnitude) : ∃ u d : Nat, (Magnitude.mk 1 x.exponent).toRatio = (u, d) ∧
    x.toRatio = (x.mantissa * u, d) ∧ 0 < u ∧ 0 < d ∧ d ≤ 2 ^ (-x.exponent).toNat := by
  unfold toRatio
  dsimp only
  split
  · exact ⟨_, _, rfl, by rw [Nat.one_mul], by rw [Nat.one_mul]; exact Nat.pow_pos (by decide), Nat.one_pos,
      Nat.one_le_two_pow⟩
  · exact ⟨_, _, rfl, by rw [Nat.mul_one], Nat.one_pos, Nat.pow_pos (by decide), le_rfl⟩

namespace FloatFormat

/-! ## Rounding -/

section

variable {num den : Nat} {e : Int}

/-- A quotient is compared with a number of last places. -/
theorem scaled_lt_iff (k : Nat) : (scaled num den e).1 < k * (scaled num den e).2 ↔
    (num : ℚ) < k * (den * (2 : ℚ) ^ e) := by
  unfold scaled
  split
  · rename_i he
    obtain ⟨n, rfl⟩ := Int.eq_ofNat_of_zero_le he
    rw [show Nat.pow 2 (n : Int).toNat = 2 ^ n from rfl, zpow_natCast, ← Nat.cast_lt (α := ℚ)]
    push_cast
    rfl
  · rename_i he
    obtain ⟨n, rfl⟩ : ∃ n : Nat, e = -n := ⟨(-e).toNat, by omega⟩
    rw [show Nat.pow 2 (- -(n : Int)).toNat = 2 ^ n by rw [neg_neg]; rfl, zpow_neg, zpow_natCast, ← Nat.cast_lt (α := ℚ)]
    have hpos : (0 : ℚ) < 2 ^ n := by positivity
    push_cast
    rw [← div_eq_mul_inv, mul_div_assoc', lt_div_iff₀ hpos]

theorem scaled_snd_pos (hden : 0 < den) : 0 < (scaled num den e).2 := by
  unfold scaled
  split
  · exact Nat.mul_pos hden (Nat.pow_pos (by decide))
  · exact hden

/-- A quotient has at most 53 bits in front of its last place. -/
theorem scaled_lastPlace_lt (hden : 0 < den) :
    (scaled num den (binary64.lastPlace num den)).1 < 2 ^ 53 * (scaled num den (binary64.lastPlace num den)).2 := by
  have hpos : (0 : ℚ) < den := by exact_mod_cast hden
  -- greater last places leave fewer bits
  have mono {e e' : Int} (hle : e ≤ e') (h : (num : ℚ) < 2 ^ 53 * (den * (2 : ℚ) ^ e)) :
      (num : ℚ) < 2 ^ 53 * (den * (2 : ℚ) ^ e') := by
    refine h.trans_le ?_
    gcongr
    norm_num
  obtain ⟨guess, hguess⟩ : ∃ guess : Int, guess = Nat.log2 num - Nat.log2 den - 52 := ⟨_, rfl⟩
  have first : (num : ℚ) < 2 ^ 53 * (den * (2 : ℚ) ^ guess) := by
    have hlt : (num : ℚ) < 2 ^ (Nat.log2 num + 1) := by exact_mod_cast Nat.lt_log2_self (n := num)
    have hle : (2 : ℚ) ^ Nat.log2 den ≤ den := by exact_mod_cast Nat.log2_self_le hden.ne'
    calc (num : ℚ) < 2 ^ (Nat.log2 num + 1) := hlt
      _ = 2 ^ 53 * (2 ^ Nat.log2 den * (2 : ℚ) ^ guess) := by
        rw [← zpow_natCast, ← zpow_natCast, ← zpow_natCast, ← zpow_add₀ (by norm_num), ← zpow_add₀ (by norm_num), hguess]
        congr 1
        push_cast
        ring
      _ ≤ 2 ^ 53 * (den * (2 : ℚ) ^ guess) := by
        have : (0 : ℚ) < 2 ^ guess := zpow_pos (by norm_num) _
        gcongr
  have hlast : ∃ e : Int, e ≤ binary64.lastPlace num den ∧ (num : ℚ) < 2 ^ 53 * (den * (2 : ℚ) ^ e) := by
    unfold lastPlace
    dsimp only
    rw [show (Nat.log2 num : Int) - Nat.log2 den - (binary64.precision - 1 : Nat) = guess from hguess.symm]
    refine ⟨_, le_max_right _ _, ?_⟩
    split
    · rename_i hshort
      have hshort := (scaled_lt_iff (2 ^ 52)).1 ((Nat.div_lt_iff_lt_mul (scaled_snd_pos hden)).1 hshort)
      push_cast at hshort
      refine hshort.trans_eq ?_
      rw [zpow_sub_one₀ (by norm_num)]
      ring
    · exact first
  obtain ⟨e, hle, he⟩ := hlast
  refine (scaled_lt_iff (2 ^ 53)).2 ?_
  push_cast
  exact mono hle he

theorem roundHalfEven_zero (n : Nat) : roundHalfEven n 0 ≤ 1 := by
  simpa using roundHalfEven_le n 0

/-- What a quotient is rounded to is a double. -/
theorem isDouble_of_round? {x : Magnitude} (h : binary64.round? num den = some x) : x.IsDouble := by
  unfold round? at h
  split at h
  · obtain rfl := Option.some.inj h
    exact ⟨by decide, by decide⟩
  dsimp only at h
  have hexp : -1074 ≤ binary64.lastPlace num den := by
    unfold lastPlace
    exact le_max_left _ _
  have hle : roundHalfEven (scaled num den (binary64.lastPlace num den)).1
      (scaled num den (binary64.lastPlace num den)).2 ≤ 2 ^ 53 := by
    rcases Nat.eq_zero_or_pos den with rfl | hden
    · have : (scaled num 0 (binary64.lastPlace num 0)).2 = 0 := by
        unfold scaled
        split <;> simp
      rw [this]
      exact (roundHalfEven_zero _).trans (by decide)
    · refine (roundHalfEven_le _ _).trans ?_
      exact (Nat.div_lt_iff_lt_mul (scaled_snd_pos hden)).2 (scaled_lastPlace_lt hden)
  generalize binary64.lastPlace num den = e at h hexp hle
  generalize roundHalfEven _ _ = m at h hle
  split_ifs at h with hm
  · obtain rfl := Option.some.inj h
    exact ⟨(by decide : 2 ^ 52 < 2 ^ 53), hexp.trans (Int.le_add_one le_rfl)⟩
  · obtain rfl := Option.some.inj h
    exact ⟨lt_of_le_of_ne hle hm, hexp⟩

end

/-! ## Grids -/

/-- The decimals of a place, in units of it: a numerator and a denominator. -/
def gridUp (place : Int) : Nat := if 0 ≤ place then 1 else Nat.pow 10 (-place).toNat

def gridDown (place : Int) : Nat := if 0 ≤ place then Nat.pow 10 place.toNat else 1

theorem dropZeros_ne_zero (fuel : Nat) : ∀ {n : Nat} (place : Int), n ≠ 0 → (dropZeros fuel n place).1 ≠ 0 := by
  induction fuel with
  | zero => exact fun _ h => h
  | succ fuel ih =>
    intro n place h
    rw [dropZeros]
    split
    · exact ih _ (by omega)
    · exact h

variable {f : FloatFormat} {x : Magnitude} {place : Int} {n : Nat}

theorem ne_zero_of_decimalAt? (h : f.decimalAt? x place = some n) : n ≠ 0 := by
  unfold decimalAt? at h
  dsimp only at h
  generalize (_ / _ : Nat) = lower at h
  split at h
  · rename_i hlower _
    have hne : lower ≠ 0 := by simpa using (Bool.and_eq_true_iff.1 hlower).2
    obtain rfl := Option.some.inj h
    split_ifs <;> omega
  · rename_i hlower _
    obtain rfl := Option.some.inj h
    simpa using (Bool.and_eq_true_iff.1 hlower).2
  · obtain rfl := Option.some.inj h
    exact Nat.succ_ne_zero _
  · cases h

/-- A grid that is finer than half the distance of the magnitudes has a decimal that rounds to one. -/
theorem exists_decimalAt? {u d : Nat} (hratio : (Magnitude.mk 1 x.exponent).toRatio = (u, d)) (hd : 0 < d)
    (hfine : 2 * (d * gridDown place) < u * gridUp place) : ∃ n, f.decimalAt? x place = some n := by
  have hdown : 0 < gridDown place := by
    unfold gridDown
    split
    · exact Nat.pow_pos (by decide)
    · exact Nat.one_pos
  unfold decimalAt? neighbourhood
  simp only [hratio]
  rw [show (if 0 ≤ place then 1 else Nat.pow 10 (-place).toNat) = gridUp place from rfl,
    show (if 0 ≤ place then Nat.pow 10 place.toNat else 1) = gridDown place from rfl]
  split
  · exact ⟨_, rfl⟩
  · exact ⟨_, rfl⟩
  · exact ⟨_, rfl⟩
  · rename_i hupper
    exfalso
    have hunit : 0 < 4 * d * gridDown place := Nat.mul_pos (by omega) hdown
    have hhigh : (4 * x.mantissa * u + 2 * u) * gridUp place = 4 * x.mantissa * u * gridUp place + 2 * (u * gridUp place) := by
      ring
    have hlow : (4 * x.mantissa * u - (if x.mantissa = Nat.pow 2 (f.precision - 1) ∧ f.leastExponent < x.exponent then 1
        else 2) * u) * gridUp place ≤ 4 * x.mantissa * u * gridUp place := Nat.mul_le_mul_right _ (Nat.sub_le ..)
    have hsize : 4 * d * gridDown place = 2 * (2 * (d * gridDown place)) := by ring
    rw [hhigh] at hupper
    generalize (4 * x.mantissa * u - _) * gridUp place = low at hupper hlow
    generalize 4 * x.mantissa * u * gridUp place = value at hupper hlow
    generalize 4 * d * gridDown place = unit at hupper hunit hsize
    -- the next multiple of the grid is above the magnitude, by at most one unit
    have above : value < (value / unit + 1) * unit := Nat.lt_mul_of_div_lt (Nat.lt_succ_self _) hunit
    have below : (value / unit + 1) * unit ≤ value + unit := by
      rw [Nat.succ_mul]
      exact Nat.add_le_add_right (Nat.div_mul_le_self _ _) _
    generalize (value / unit + 1) * unit = next at hupper above below
    split at hupper <;> simp only [Bool.and_eq_false_iff, decide_eq_false_iff_not] at hupper <;> omega

/-- If some grid that is tried has a decimal, the first that has one does not give zero. -/
theorem shortestFrom_ne_zero (finer : Nat) : ∀ {place : Int}, (∃ n, f.decimalAt? x (place - finer) = some n) →
    (shortestFrom f x finer place).1 ≠ 0 := by
  induction finer with
  | zero =>
    rintro place ⟨n, hn⟩
    rw [shortestFrom, show f.decimalAt? x place = some n by simpa using hn]
    exact ne_zero_of_decimalAt? hn
  | succ finer ih =>
    rintro place ⟨n, hn⟩
    rw [shortestFrom]
    split
    · exact ne_zero_of_decimalAt? ‹_›
    · refine ih ⟨n, ?_⟩
      rw [← hn]
      congr 1
      push_cast
      ring

theorem leadingPlace_eq (num den : Nat) :
    leadingPlace num den = ((Nat.toDigits 10 (num * 10 ^ 400 / den)).length : Int) - 1 - 400 := rfl

theorem pow_length_toDigits_le {q : Nat} (hq : 0 < q) : 10 ^ ((Nat.toDigits 10 q).length - 1) ≤ q := by
  by_contra h
  rcases Nat.eq_zero_or_pos ((Nat.toDigits 10 q).length - 1) with hzero | hpos
  · rw [hzero, pow_zero] at h
    omega
  · have := (Nat.length_toDigits_le_iff (by decide) hpos).2 (Nat.lt_of_not_le h)
    omega

/-- Seventeen digits are more than 54 bits. -/
theorem double_lt_of_le_mul {m w z : Nat} (hm : m < 2 ^ 53) (hw : 0 < w) (hz : z ≤ m * w) : 2 * z < w * 10 ^ 17 := by
  have := Nat.mul_lt_mul_of_pos_right hm hw
  omega

/-- Seventeen places after the first digit of a double, the grid is fine enough. -/
theorem fine_leadingPlace {u d : Nat} (hx : x.IsDouble) (hne : x.mantissa ≠ 0) (hu : 0 < u) (hd : 0 < d)
    (hdouble : d ≤ 2 ^ 1074) (hplace : place = leadingPlace (x.mantissa * u) d - 17) :
    2 * (d * gridDown place) < u * gridUp place := by
  have hpow : 2 ^ 1074 ≤ 10 ^ 400 :=
    calc 2 ^ 1074 ≤ 2 ^ (3 * 400) := Nat.pow_le_pow_right (by decide) (by decide)
      _ = 8 ^ 400 := Nat.pow_mul 2 3 400
      _ ≤ 10 ^ 400 := Nat.pow_le_pow_left (by decide) 400
  have hq : 0 < x.mantissa * u * 10 ^ 400 / d := by
    refine Nat.div_pos ?_ hd
    calc d ≤ 10 ^ 400 := hdouble.trans hpow
      _ ≤ x.mantissa * u * 10 ^ 400 := Nat.le_mul_of_pos_left _ (Nat.mul_pos (Nat.pos_of_ne_zero hne) hu)
  -- the number of digits tells the magnitude up to a factor of ten
  obtain ⟨k, hk⟩ : ∃ k, (Nat.toDigits 10 (x.mantissa * u * 10 ^ 400 / d)).length = k + 1 :=
    Nat.exists_eq_succ_of_ne_zero Nat.length_toDigits_pos.ne'
  have hlength := pow_length_toDigits_le hq
  rw [hk, Nat.add_sub_cancel] at hlength
  have key : 2 * (d * 10 ^ k) < u * 10 ^ (400 + 17) := by
    have hdigits : d * 10 ^ k ≤ x.mantissa * (u * 10 ^ 400) :=
      calc d * 10 ^ k ≤ d * (x.mantissa * u * 10 ^ 400 / d) := Nat.mul_le_mul_left _ hlength
        _ ≤ x.mantissa * u * 10 ^ 400 := Nat.mul_div_le _ _
        _ = x.mantissa * (u * 10 ^ 400) := Nat.mul_assoc _ _ _
    rw [Nat.pow_add, ← Nat.mul_assoc u]
    exact double_lt_of_le_mul hx.mantissa_lt (Nat.mul_pos hu (Nat.pow_pos (by decide))) hdigits
  have hplace : place = k - 417 := by
    have := leadingPlace_eq (x.mantissa * u) d
    rw [hk] at this
    omega
  unfold gridUp gridDown
  split
  · have hsplit : k = 400 + 17 + place.toNat := by omega
    rw [hsplit, Nat.pow_add] at key
    refine Nat.lt_of_mul_lt_mul_right (a := 10 ^ (400 + 17)) ?_
    calc 2 * (d * Nat.pow 10 place.toNat) * 10 ^ (400 + 17) = 2 * (d * (10 ^ (400 + 17) * 10 ^ place.toNat)) := by
          rw [show Nat.pow 10 place.toNat = 10 ^ place.toNat from rfl]
          ring
      _ < u * 10 ^ (400 + 17) := key
      _ = u * 1 * 10 ^ (400 + 17) := by rw [Nat.mul_one]
  · have hsplit : 400 + 17 = (-place).toNat + k := by omega
    rw [hsplit, Nat.pow_add] at key
    refine Nat.lt_of_mul_lt_mul_right (a := 10 ^ k) ?_
    calc 2 * (d * 1) * 10 ^ k = 2 * (d * 10 ^ k) := by ring
      _ < u * (10 ^ (-place).toNat * 10 ^ k) := key
      _ = u * Nat.pow 10 (-place).toNat * 10 ^ k := (Nat.mul_assoc _ _ _).symm

/-- The shortest digits of a double that is not zero are not zero. -/
theorem shortest_ne_zero (hx : x.IsDouble) (hne : x.mantissa ≠ 0) : (f.shortest x).1 ≠ 0 := by
  obtain ⟨u, d, hunit, hratio, hu, hd, hle⟩ := x.exists_toRatio
  have hdouble : d ≤ 2 ^ 1074 := hle.trans (Nat.pow_le_pow_right (by decide) (by have := hx.exponent_ge; omega))
  have hfrom : (shortestFrom f x 17 (leadingPlace (x.mantissa * u) d)).1 ≠ 0 :=
    shortestFrom_ne_zero 17 (exists_decimalAt? hunit hd (fine_leadingPlace hx hne hu hd hdouble rfl))
  rw [shortest, if_neg hne, hratio]
  exact dropZeros_ne_zero _ _ hfrom

end FloatFormat

end ConstrainedDecoding
