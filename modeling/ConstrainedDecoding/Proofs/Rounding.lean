import ConstrainedDecoding.Numeral.Floating
import Mathlib.Data.Nat.Log
import Mathlib.Tactic.Ring

/-!
# Whole numbers as doubles

A double has 53 bits, so a whole number is rounded to a multiple of a power of two. Up to 2 ^ 53 it
stays what it is, and rounding keeps the order of numbers.
-/
namespace ConstrainedDecoding

/-! ## Quotients -/

section

variable {a b d : Nat}

theorem div_le_roundHalfEven (a d : Nat) : a / d ≤ roundHalfEven a d := by
  unfold roundHalfEven
  dsimp only
  split_ifs <;> omega

theorem roundHalfEven_le (a d : Nat) : roundHalfEven a d ≤ a / d + 1 := by
  unfold roundHalfEven
  dsimp only
  split_ifs <;> omega

theorem roundHalfEven_mul (a : Nat) (hd : 0 < d) : roundHalfEven (a * d) d = a := by
  simp [roundHalfEven, Nat.mul_mod_left, Nat.mul_div_left a hd, hd]

@[simp] theorem roundHalfEven_one (a : Nat) : roundHalfEven a 1 = a := by
  simpa using roundHalfEven_mul a Nat.one_pos

theorem roundHalfEven_mono (h : a ≤ b) (d : Nat) : roundHalfEven a d ≤ roundHalfEven b d := by
  rcases (Nat.div_le_div_right (c := d) h).lt_or_eq with hlt | heq
  · exact (roundHalfEven_le a d).trans ((Nat.succ_le_of_lt hlt).trans (div_le_roundHalfEven b d))
  · -- with the same quotient, the remainders are in order
    have hmod : a % d ≤ b % d := by
      have ha := Nat.div_add_mod a d
      have hb := Nat.div_add_mod b d
      rw [← heq] at hb
      omega
    unfold roundHalfEven
    dsimp only
    rw [heq]
    split_ifs <;> omega

end

/-! ## Whole numbers -/

/-- The distance between the doubles near a whole number that has more than 53 bits; for smaller ones it
is one. -/
def doubleSpacing (n : Nat) : Nat := Nat.pow 2 (Nat.log2 n - 52)

/-- The whole number that the double nearest to a whole number stands for. -/
def nearestDouble (n : Nat) : Nat := roundHalfEven n (doubleSpacing n) * doubleSpacing n

theorem doubleSpacing_pos (n : Nat) : 0 < doubleSpacing n := Nat.pow_pos (by decide)

theorem doubleSpacing_of_lt {n : Nat} (h : n < 2 ^ 53) : doubleSpacing n = 1 := by
  have : Nat.log2 n ≤ 52 := by
    rcases Nat.eq_zero_or_pos n with rfl | hpos
    · decide
    · exact Nat.lt_succ_iff.1 ((Nat.log2_lt hpos.ne').2 h)
  rw [doubleSpacing, Nat.sub_eq_zero_of_le this]

/-- A multiple of the spacing that is not below a number is not below the double nearest to it. -/
theorem nearestDouble_le_mul {n c : Nat} (h : n ≤ c * doubleSpacing n) : nearestDouble n ≤ c * doubleSpacing n := by
  refine Nat.mul_le_mul_right _ ?_
  rw [← roundHalfEven_mul c (doubleSpacing_pos n)]
  exact roundHalfEven_mono h _

theorem mul_le_nearestDouble {n c : Nat} (h : c * doubleSpacing n ≤ n) : c * doubleSpacing n ≤ nearestDouble n := by
  refine Nat.mul_le_mul_right _ ?_
  rw [← roundHalfEven_mul c (doubleSpacing_pos n)]
  exact roundHalfEven_mono h _

/-- A power of two that is not below the leading digit is a multiple of the spacing. -/
theorem exists_pow_eq_mul {n k : Nat} (h : Nat.log2 n ≤ k) : ∃ c, 2 ^ k = c * doubleSpacing n :=
  ⟨2 ^ (k - (Nat.log2 n - 52)), by
    rw [doubleSpacing, show Nat.pow 2 _ = 2 ^ (Nat.log2 n - 52) from rfl, ← Nat.pow_add]
    congr 1
    omega⟩

/-- Whole numbers of at most 53 bits are doubles. -/
theorem nearestDouble_of_le {n : Nat} (h : n ≤ 2 ^ 53) : nearestDouble n = n := by
  rcases h.lt_or_eq with hlt | rfl
  · rw [nearestDouble, doubleSpacing_of_lt hlt, roundHalfEven_one, Nat.mul_one]
  · decide

theorem nearestDouble_mono {m n : Nat} (h : m ≤ n) : nearestDouble m ≤ nearestDouble n := by
  rcases Nat.eq_zero_or_pos m with rfl | hpos
  · rw [nearestDouble_of_le (Nat.zero_le _)]
    exact Nat.zero_le _
  have hle : Nat.log2 m ≤ Nat.log2 n :=
    (Nat.le_log2 (by omega)).2 ((Nat.log2_self_le hpos.ne').trans h)
  rcases hle.eq_or_lt with heq | hlt
  · have hspacing : doubleSpacing m = doubleSpacing n := by rw [doubleSpacing, heq, doubleSpacing]
    rw [nearestDouble, nearestDouble, hspacing]
    exact Nat.mul_le_mul_right _ (roundHalfEven_mono h _)
  · -- a power of two lies between the numbers, and it is a double
    obtain ⟨c, hc⟩ := exists_pow_eq_mul (n := m) hlt.le
    obtain ⟨c', hc'⟩ := exists_pow_eq_mul (n := n) le_rfl
    have below : m ≤ 2 ^ Nat.log2 n := ((Nat.log2_lt hpos.ne').1 hlt).le
    have above : 2 ^ Nat.log2 n ≤ n := Nat.log2_self_le (by omega)
    calc nearestDouble m ≤ 2 ^ Nat.log2 n := hc ▸ nearestDouble_le_mul (hc ▸ below)
      _ ≤ nearestDouble n := hc' ▸ mul_le_nearestDouble (hc' ▸ above)

/-! ## Rounding -/

/-- A whole number in units of its last place. -/
def inLastPlaces (n : Nat) : Nat × Nat :=
  (n * Nat.pow 2 (52 - Nat.log2 n), doubleSpacing n)

theorem scaled_whole (n : Nat) :
    FloatFormat.scaled n 1 ((Nat.log2 n : Int) - 52) = inLastPlaces n := by
  unfold FloatFormat.scaled inLastPlaces doubleSpacing
  split
  · rename_i hle
    rw [show 52 - Nat.log2 n = 0 by omega, show ((Nat.log2 n : Int) - 52).toNat = Nat.log2 n - 52 by omega,
      Nat.one_mul]
    exact Prod.ext (Nat.mul_one n).symm rfl
  · rename_i hlt
    rw [show Nat.log2 n - 52 = 0 by omega, show (-((Nat.log2 n : Int) - 52)).toNat = 52 - Nat.log2 n by omega]

/-- The quotient has 53 bits. -/
theorem inLastPlaces_bounds {n : Nat} (h : n ≠ 0) :
    2 ^ 52 ≤ (inLastPlaces n).1 / (inLastPlaces n).2 ∧ (inLastPlaces n).1 < 2 ^ 53 * (inLastPlaces n).2 := by
  have units : 2 ^ 52 * doubleSpacing n = 2 ^ Nat.log2 n * 2 ^ (52 - Nat.log2 n) := by
    rw [doubleSpacing, show Nat.pow 2 _ = 2 ^ (Nat.log2 n - 52) from rfl, ← Nat.pow_add, ← Nat.pow_add]
    congr 1
    omega
  constructor
  · refine (Nat.le_div_iff_mul_le (doubleSpacing_pos n)).2 ?_
    exact units.le.trans (Nat.mul_le_mul_right _ (Nat.log2_self_le h))
  · have hlt : n * 2 ^ (52 - Nat.log2 n) < 2 ^ (Nat.log2 n + 1) * 2 ^ (52 - Nat.log2 n) :=
      Nat.mul_lt_mul_of_pos_right Nat.lt_log2_self (Nat.pow_pos (by decide))
    refine hlt.trans_eq ?_
    rw [Nat.pow_succ, Nat.mul_right_comm, ← units, inLastPlaces]
    ring

theorem lastPlace_whole {n : Nat} (h : n ≠ 0) :
    FloatFormat.binary64.lastPlace n 1 = (Nat.log2 n : Int) - 52 := by
  have hone : Nat.log2 1 = 0 := by decide
  have hguess : (Nat.log2 n : Int) - (Nat.log2 1 : Int) - (FloatFormat.binary64.precision - 1 : Nat) =
      (Nat.log2 n : Int) - 52 := by
    rw [hone]
    simp [FloatFormat.binary64]
  have hbits : Nat.pow 2 (FloatFormat.binary64.precision - 1) = 2 ^ 52 := rfl
  unfold FloatFormat.lastPlace
  dsimp only
  rw [hguess, scaled_whole, hbits, if_neg (Nat.not_lt.2 (inLastPlaces_bounds h).1)]
  refine max_eq_right ?_
  simp only [FloatFormat.binary64]
  omega

/-- A magnitude in units of the last place of a whole number. -/
theorem toRatio_inLastPlaces (m k : Nat) :
    (Magnitude.mk m ((k : Int) - 52)).toRatio = (m * Nat.pow 2 (k - 52), Nat.pow 2 (52 - k)) := by
  unfold Magnitude.toRatio
  dsimp only
  split
  · rw [show ((k : Int) - 52).toNat = k - 52 by omega, show 52 - k = 0 by omega]
  · rw [show (-((k : Int) - 52)).toNat = 52 - k by omega, show k - 52 = 0 by omega]
    simp

/-- The double nearest to a whole number, in units of the last place. -/
theorem roundHalfEven_inLastPlaces (n : Nat) :
    roundHalfEven (inLastPlaces n).1 (inLastPlaces n).2 * doubleSpacing n =
      nearestDouble n * Nat.pow 2 (52 - Nat.log2 n) := by
  rcases Nat.lt_or_ge (Nat.log2 n) 52 with hlt | hge
  · have hn : n < 2 ^ 53 :=
      Nat.lt_log2_self.trans_le (Nat.pow_le_pow_right (by decide) (by omega))
    simp only [inLastPlaces, doubleSpacing_of_lt hn, roundHalfEven_one, nearestDouble_of_le hn.le, Nat.mul_one]
  · rw [inLastPlaces, Nat.sub_eq_zero_of_le hge]
    simp [nearestDouble]

/-- A whole number of at most 64 bits has a nearest double, which is a whole number. -/
theorem round?_whole {n : Nat} (h : n < 2 ^ 64) : ∃ x, FloatFormat.binary64.round? n 1 = some x ∧
    ∃ d, 0 < d ∧ x.toRatio = (nearestDouble n * d, d) := by
  have pos (k : Nat) : 0 < Nat.pow 2 k := Nat.pow_pos (by decide)
  rcases Nat.eq_zero_or_pos n with rfl | hpos
  · refine ⟨⟨0, -1074⟩, rfl, Nat.pow 2 (-(-1074 : Int)).toNat, pos _, ?_⟩
    rw [Magnitude.toRatio, if_neg (by decide), nearestDouble_of_le (Nat.zero_le _), Nat.zero_mul]
  have hne := hpos.ne'
  have hlog : Nat.log2 n < 64 := (Nat.log2_lt hne).2 h
  have value := roundHalfEven_inLastPlaces n
  obtain ⟨m, hm⟩ : ∃ m, roundHalfEven (inLastPlaces n).1 (inLastPlaces n).2 = m := ⟨_, rfl⟩
  rw [hm] at value
  have fits {e : Int} (he : e ≤ 13) : ¬ FloatFormat.binary64.greatestExponent < e := by
    simp only [FloatFormat.binary64]
    omega
  have hbits : Nat.pow 2 FloatFormat.binary64.precision = 2 ^ 53 := rfl
  have hbits' : Nat.pow 2 (FloatFormat.binary64.precision - 1) = 2 ^ 52 := rfl
  unfold FloatFormat.round?
  rw [if_neg hne]
  dsimp only
  rw [lastPlace_whole hne, scaled_whole, hm, hbits, hbits']
  split
  · -- the number is rounded up to a power of two, so it has more than 53 bits
    rename_i hfull
    have hge : 52 ≤ Nat.log2 n := by
      by_contra hlt
      have hn : n < 2 ^ 53 := Nat.lt_log2_self.trans_le (Nat.pow_le_pow_right (by decide) (by omega))
      have hbound := (inLastPlaces_bounds hne).2
      have hspacing : (inLastPlaces n).2 = 1 := doubleSpacing_of_lt hn
      rw [hspacing, roundHalfEven_one] at hm
      rw [hspacing, hm, hfull] at hbound
      exact absurd hbound (by decide)
    dsimp only
    rw [if_neg (fits (by omega))]
    refine ⟨_, rfl, 1, Nat.one_pos, ?_⟩
    rw [show (Nat.log2 n : Int) - 52 + 1 = ((Nat.log2 n + 1 : Nat) : Int) - 52 by push_cast; ring,
      toRatio_inLastPlaces, show 52 - (Nat.log2 n + 1) = 0 by omega]
    rw [hfull, doubleSpacing, Nat.sub_eq_zero_of_le hge] at value
    refine Prod.ext ?_ rfl
    change 2 ^ 52 * 2 ^ (Nat.log2 n + 1 - 52) = _
    rw [show Nat.log2 n + 1 - 52 = (Nat.log2 n - 52) + 1 by omega, Nat.pow_succ]
    change 2 ^ 53 * 2 ^ (Nat.log2 n - 52) = _ at value
    rw [← value]
    ring
  · dsimp only
    rw [if_neg (fits (by omega))]
    exact ⟨_, rfl, Nat.pow 2 (52 - Nat.log2 n), pos _, by rw [toRatio_inLastPlaces, ← value, doubleSpacing]⟩

/-- The double nearest to a whole number lies between two whole numbers that are both that double. -/
theorem floor_ceil_of_toRatio {x : Magnitude} {v d : Nat} (hd : 0 < d) (h : x.toRatio = (v * d, d)) :
    x.floor = v ∧ x.ceil = v := by
  rw [Magnitude.floor, Magnitude.ceil, h]
  refine ⟨Nat.mul_div_cancel _ hd, ?_⟩
  dsimp only
  rw [Nat.add_sub_assoc hd, Nat.add_comm, Nat.add_mul_div_right _ _ hd, Nat.div_eq_of_lt (by omega), Nat.zero_add]

end ConstrainedDecoding
