import ConstrainedDecoding.Regex.IntegerRange
import Mathlib.Algebra.Order.Ring.Int

/-!
# Ranges by machine arithmetic

The patterns between two bounds, worked out on words of 64 bits. Every step that could leave the words
has no result if it does. There always is one, and it is that of exact arithmetic, if the bounds are ones
that schemas can have.
-/
namespace ConstrainedDecoding.Regex

/-! ## Words -/

/-- The difference of two words, unless it overflows. -/
def difference? (a b : Int64) : Option Int64 :=
  let z := a.toInt - b.toInt
  if Int64.minValue.toInt ≤ z ∧ z ≤ Int64.maxValue.toInt then some (.ofIntClamp z) else none

/-- The difference of two words, or the word nearest to it. -/
def nearestDifference (a b : Int64) : Int64 := .ofIntClamp (a.toInt - b.toInt)

/-- A word without its sign. -/
def unsigned (w : Int64) : UInt64 := UInt64.ofNat w.toInt.natAbs

/-- A word that has no minus sign, as an unsigned word. -/
def unsigned? (w : Int64) : Option UInt64 := if 0 ≤ w then some (UInt64.ofNat w.toInt.toNat) else none

/-- The greater of two words. -/
def greater (a b : Int64) : Int64 := if a ≤ b then b else a

section

variable {a b w : Int64}

theorem toInt_bounds (w : Int64) : -2 ^ 63 ≤ w.toInt ∧ w.toInt < 2 ^ 63 := ⟨w.le_toInt, w.toInt_lt⟩

theorem difference?_eq (hlo : -2 ^ 63 ≤ a.toInt - b.toInt) (hhi : a.toInt - b.toInt < 2 ^ 63) :
    ∃ d, difference? a b = some d ∧ d.toInt = a.toInt - b.toInt := by
  have hfits : Int64.minValue.toInt ≤ a.toInt - b.toInt ∧ a.toInt - b.toInt ≤ Int64.maxValue.toInt :=
    ⟨hlo, Int.le_of_lt_add_one hhi⟩
  exact ⟨_, if_pos hfits, Int64.toInt_ofIntClamp hfits.1 hfits.2⟩

theorem toInt_nearestDifference (hlo : -2 ^ 63 ≤ a.toInt - b.toInt) (hhi : a.toInt - b.toInt < 2 ^ 63) :
    (nearestDifference a b).toInt = a.toInt - b.toInt :=
  Int64.toInt_ofIntClamp hlo (Int.le_of_lt_add_one hhi)

@[simp] theorem toNat_unsigned (w : Int64) : (unsigned w).toNat = w.toInt.natAbs := by
  have := toInt_bounds w
  exact UInt64.toNat_ofNat_of_lt' (by change w.toInt.natAbs < 2 ^ 64; omega)

theorem unsigned?_eq (h : 0 ≤ w) : ∃ u, unsigned? w = some u ∧ u.toNat = w.toInt.toNat := by
  have := toInt_bounds w
  exact ⟨_, if_pos h, UInt64.toNat_ofNat_of_lt' (by change w.toInt.toNat < 2 ^ 64; omega)⟩

@[simp] theorem toInt_greater (a b : Int64) : (greater a b).toInt = max a.toInt b.toInt := by
  unfold greater
  split
  · rename_i h
    exact (max_eq_right (Int64.le_iff_toInt_le.1 h)).symm
  · rename_i h
    exact (max_eq_left (Int.le_of_lt (Int.not_le.1 (mt Int64.le_iff_toInt_le.2 h)))).symm

end

/-! ## Integers -/

/-- The natural numbers between two unsigned words. -/
def naturalsOfWords (lo hi : UInt64) : List Pattern := naturalsBetween lo.toNat hi.toNat

/-- The integers between two words, each of which may be absent. -/
def integersOfWords? : Option Int64 → Option Int64 → Option (List Pattern)
  | none, none => some (integersBetween none none)
  | some lo, some hi => do
    let below := if lo < 0 then
        [negative (naturalsOfWords (if hi < 0 then unsigned hi else 1) (unsigned lo))]
      else []
    let above ← if 0 ≤ hi then do
        let least ← unsigned? (greater lo 0)
        let most ← unsigned? hi
        pure [naturalsOfWords least most]
      else pure []
    return oneOf (below ++ above)
  | some lo, none =>
    if 0 ≤ lo then (unsigned? lo).map fun least => naturalsFrom least.toNat
    else some (oneOf [negative (naturalsOfWords 1 (unsigned lo)), naturalsFrom 0])
  | none, some hi =>
    if 0 ≤ hi then (unsigned? hi).map fun most =>
      oneOf [negative [digitBetween 1 9, .quantified anyDigit .star], naturalsOfWords 0 most]
    else some (negative (naturalsFrom (unsigned hi).toNat))

/-- The integers between words never overflow. -/
theorem integersOfWords?_eq (lo hi : Option Int64) :
    integersOfWords? lo hi = some (integersBetween (lo.map Int64.toInt) (hi.map Int64.toInt)) := by
  have nonneg (w : Int64) : 0 ≤ w ↔ 0 ≤ w.toInt := Int64.le_iff_toInt_le
  have negative (w : Int64) : w < 0 ↔ w.toInt < 0 := Int64.lt_iff_toInt_lt
  match lo, hi with
  | none, none => rfl
  | some lo, some hi =>
    by_cases hpos : 0 ≤ hi
    · obtain ⟨least, hleast, hleast'⟩ := unsigned?_eq (w := greater lo 0)
        ((nonneg _).2 (by rw [toInt_greater]; exact le_max_right _ _))
      obtain ⟨most, hmost, hmost'⟩ := unsigned?_eq hpos
      have hneg : ¬ hi.toInt < 0 := Int.not_lt.2 ((nonneg hi).1 hpos)
      simp [integersOfWords?, integersBetween, naturalsOfWords, hleast, hleast', hmost, hmost', hpos, hneg,
        (nonneg hi).1 hpos, negative]
    · have hneg : hi.toInt < 0 := Int.not_le.1 (mt (nonneg hi).2 hpos)
      simp [integersOfWords?, integersBetween, naturalsOfWords, hpos, hneg, negative, Int.not_le.2 hneg]
  | some lo, none =>
    by_cases hpos : 0 ≤ lo
    · obtain ⟨least, hleast, hleast'⟩ := unsigned?_eq hpos
      simp [integersOfWords?, integersBetween, hleast, hleast', hpos, (nonneg lo).1 hpos]
    · have hneg : lo.toInt < 0 := Int.not_le.1 (mt (nonneg lo).2 hpos)
      simp [integersOfWords?, integersBetween, naturalsOfWords, hpos, Int.not_le.2 hneg]
  | none, some hi =>
    by_cases hpos : 0 ≤ hi
    · obtain ⟨most, hmost, hmost'⟩ := unsigned?_eq hpos
      simp [integersOfWords?, integersBetween, naturalsOfWords, hmost, hmost', hpos, (nonneg hi).1 hpos]
    · have hneg : hi.toInt < 0 := Int.not_le.1 (mt (nonneg hi).2 hpos)
      simp [integersOfWords?, integersBetween, hpos, Int.not_le.2 hneg]

/-! ## Numbers -/

/-- An alternative that is there if a condition holds, unless it overflows. -/
def alternativeIf? (c : Bool) (ps : Option (List Pattern)) : Option (List (List Pattern)) :=
  if c then ps.map ([·]) else some []

@[simp] theorem alternativeIf?_some (c : Bool) (ps : List Pattern) :
    alternativeIf? c (some ps) = some (if c then [ps] else []) := by
  cases c <;> rfl

/-- The alternatives for numbers between two words, each of which may be absent. -/
def decimalsOfWords? (lo hi : Option Int64) : Option (List (List Pattern)) := do
  let inOrder (a b : Option Int64) : Bool :=
    match a, b with
    | some a, some b => a ≤ b
    | _, _ => true
  let whole ← alternativeIf? (inOrder lo hi) (integersOfWords? lo hi)
  let fromZero := (lo.map (greater · 0)).getD 0
  let above ← match hi with
    | some h => (difference? h 1).map some
    | none => some none
  let positive ← alternativeIf? (inOrder (some fromZero) above)
    ((integersOfWords? (some fromZero) above).map (· ++ fraction))
  let nearZero := if inOrder lo (some (-1)) ∧ inOrder (some 0) hi then [.char '-' :: .char '0' :: fraction] else []
  let least := (hi.map fun h => greater (nearestDifference 0 h) 1).getD 1
  let most := lo.map fun l => nearestDifference (nearestDifference 0 l) 1
  let below ← alternativeIf? (inOrder (some least) most)
    ((integersOfWords? (some least) most).map fun ps => negative (ps ++ fraction))
  return whole ++ positive ++ nearZero ++ below

/-- The numbers between words do not overflow unless one of the words is the least one. -/
theorem decimalsOfWords?_eq {lo hi : Option Int64} (hlo : ∀ l ∈ lo, -2 ^ 63 < l.toInt) (hhi : ∀ h ∈ hi, -2 ^ 63 < h.toInt) :
    decimalsOfWords? lo hi = some (decimalsBetween (lo.map Int64.toInt) (hi.map Int64.toInt)) := by
  -- what the arithmetic on a bound comes to
  have lower {l : Int64} (h : -2 ^ 63 < l.toInt) :
      (nearestDifference (nearestDifference 0 l) 1).toInt = -l.toInt - 1 := by
    have := toInt_bounds l
    have hneg : (nearestDifference 0 l).toInt = -l.toInt := by
      rw [toInt_nearestDifference] <;> simp <;> omega
    rw [toInt_nearestDifference] <;> simp [hneg] <;> omega
  have upper {h : Int64} (hh : -2 ^ 63 < h.toInt) : ∃ d, difference? h 1 = some d ∧ d.toInt = h.toInt - 1 ∧
      (nearestDifference 0 h).toInt = -h.toInt := by
    have := toInt_bounds h
    obtain ⟨d, hd, hd'⟩ := difference?_eq (a := h) (b := 1) (by simp; omega) (by simp; omega)
    refine ⟨d, hd, by simpa using hd', ?_⟩
    rw [toInt_nearestDifference] <;> simp <;> omega
  match lo, hi with
  | none, none => simp [decimalsOfWords?, decimalsBetween, integersOfWords?_eq, Int64.le_iff_toInt_le]
  | some l, none =>
    simp [decimalsOfWords?, decimalsBetween, integersOfWords?_eq, Int64.le_iff_toInt_le, lower (hlo l rfl), max_comm]
  | none, some h =>
    obtain ⟨d, hd, hd', hneg⟩ := upper (hhi h rfl)
    simp [decimalsOfWords?, decimalsBetween, integersOfWords?_eq, Int64.le_iff_toInt_le, hd, hd', hneg]
  | some l, some h =>
    obtain ⟨d, hd, hd', hneg⟩ := upper (hhi h rfl)
    simp [decimalsOfWords?, decimalsBetween, integersOfWords?_eq, Int64.le_iff_toInt_le, hd, hd', hneg,
      lower (hlo l rfl), max_comm]

end ConstrainedDecoding.Regex
