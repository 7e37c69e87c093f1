import ConstrainedDecoding.Proofs.DigitTexts
import ConstrainedDecoding.Proofs.JsonTexts
import ConstrainedDecoding.Proofs.Patterns

/-!
# Patterns for ranges of whole numbers

The patterns between two bounds match the decimal texts of the numbers between them, and they are
well-formed if the bounds are in order and have no more digits than can be counted.
-/
namespace ConstrainedDecoding.Regex

open Computability Pattern
open Ebnf (Role)

/-! ## Lists of items -/

/-- Items that are well-formed, and match the texts of a language one after the other. -/
structure Fit (ps : List Pattern) (K : Language Char) : Prop where
  wellFormed : ∀ p ∈ ps, p.WellFormed .item
  language : sequenceLanguage ps = K

theorem sequenceLanguage_append (ps qs : List Pattern) :
    sequenceLanguage (ps ++ qs) = sequenceLanguage ps * sequenceLanguage qs := by
  induction ps with
  | nil => rw [List.nil_append, sequenceLanguage, one_mul]
  | cons p ps ih => rw [List.cons_append, sequenceLanguage, sequenceLanguage, ih, mul_assoc]

variable {p : Pattern} {ps qs : List Pattern} {K K' : Language Char}

theorem Fit.append (h : Fit ps K) (h' : Fit qs K') : Fit (ps ++ qs) (K * K') :=
  ⟨List.forall_mem_append.2 ⟨h.wellFormed, h'.wellFormed⟩, by rw [sequenceLanguage_append, h.language, h'.language]⟩

theorem fit_singleton (hp : p.WellFormed .item) (hlanguage : p.language = K) : Fit [p] K :=
  ⟨by simpa using hp, by rw [sequenceLanguage, sequenceLanguage, mul_one, hlanguage]⟩

theorem Fit.cons (hp : p.WellFormed .item) (hlanguage : p.language = K) (h : Fit ps K') : Fit (p :: ps) (K * K') :=
  (fit_singleton hp hlanguage).append h

theorem Fit.char (c : Char) (h : Fit ps K) : Fit (.char c :: ps) ({[c]} * K) :=
  h.cons (.plain .char) (by rw [Pattern.language])

theorem choiceLanguage_sequences (xs : List (List Pattern)) :
    choiceLanguage (xs.map .sequence) = (xs.map sequenceLanguage).sum := by
  induction xs with
  | nil => simp [choiceLanguage]
  | cons x xs ih => rw [List.map_cons, choiceLanguage, ih, Pattern.language, List.map_cons, List.sum_cons]

/-- Several sequences match what some one of them does. -/
theorem fit_oneOf {xs : List (List Pattern)} {Ks : List (Language Char)} (hne : xs ≠ []) (h : List.Forall₂ Fit xs Ks) :
    Fit (oneOf xs) Ks.sum := by
  obtain ⟨wellFormed, language⟩ : (∀ x ∈ xs, ∀ p ∈ x, p.WellFormed .item) ∧ (xs.map sequenceLanguage).sum = Ks.sum := by
    clear hne
    induction h with
    | nil => simp
    | cons hx _ ih =>
      exact ⟨List.forall_mem_cons.2 ⟨hx.wellFormed, ih.1⟩, by simp [hx.language, ih.2]⟩
  rw [← language]
  unfold oneOf
  split
  · exact ⟨by simpa using wellFormed, by simp⟩
  · refine fit_singleton (.plain (.group (.alternation (by simpa using hne) ?_))) ?_
    · exact List.forall_mem_map.2 fun x hx => .sequence (wellFormed x hx)
    · rw [Pattern.language, Pattern.language, choiceLanguage_sequences]

/-- Alternatives of a language make up a part of the language. -/
theorem exists_fit_oneOf {xs : List (List Pattern)} (hne : xs ≠ []) (h : ∀ x ∈ xs, ∃ L ≤ K, Fit x L) :
    ∃ L ≤ K, Fit (oneOf xs) L := by
  choose! languages hle hfit using h
  refine ⟨_, ?_, fit_oneOf hne (List.forall₂_map_right_iff.2 (List.forall₂_same.2 hfit))⟩
  clear hne hfit
  induction xs with
  | nil => exact bot_le
  | cons x xs ih =>
    obtain ⟨hx, hxs⟩ := List.forall_mem_cons.1 hle
    rw [List.map_cons, List.sum_cons]
    exact add_le hx (ih hxs)

/-- An alternative matches a part of what several sequences do. -/
theorem sequenceLanguage_le_oneOf {xs : List (List Pattern)} {x : List Pattern} (hx : x ∈ xs) :
    sequenceLanguage x ≤ sequenceLanguage (oneOf xs) := by
  unfold oneOf
  split
  · exact (List.mem_singleton.1 hx ▸ le_rfl)
  · rw [sequenceLanguage, sequenceLanguage, mul_one, Pattern.language, Pattern.language, choiceLanguage_sequences]
    exact List.single_le_sum (fun _ _ => bot_le) _ (List.mem_map_of_mem hx)

/-! ## Digits -/

theorem toNat_digitCode {d : Nat} (hd : d ≤ 9) : (UInt32.ofNat (48 + d)).toNat = 48 + d :=
  UInt32.toNat_ofNat_of_lt' (Nat.lt_of_le_of_lt (Nat.add_le_add_left hd 48) (by decide))

/-- The characters that stand for the digits between two. -/
theorem chars_digitRange {lo hi : Nat} (hlo : lo ≤ 9) (hhi : hi ≤ 9) :
    CharClass.chars ⟨false, [(UInt32.ofNat (48 + lo), UInt32.ofNat (48 + hi))]⟩ =
      {c | c.isDigit = true ∧ lo ≤ digitOf c ∧ digitOf c ≤ hi} := by
  ext c
  rw [CharClass.mem_chars]
  simp only [List.mem_singleton, exists_eq_left, iff_true, toNat_digitCode hlo, toNat_digitCode hhi,
    Set.mem_ofPred_eq, isDigit_iff, digitOf]
  omega

theorem fit_digitBetween {lo hi : Nat} (hle : lo ≤ hi) (hhi : hi ≤ 9) :
    Fit [digitBetween lo hi] (Language.single {c | c.isDigit = true ∧ lo ≤ digitOf c ∧ digitOf c ≤ hi}) := by
  unfold digitBetween
  split
  · rename_i heq
    subst heq
    refine fit_singleton (.plain .char) ?_
    rw [Pattern.language, ← Language.single_singleton]
    congr 1
    ext c
    constructor
    · rintro rfl
      simp [isDigit_digitChar hhi, digitOf_digitChar hhi]
    · rintro ⟨hc, hle, hle'⟩
      rw [← digitChar_digitOf hc, le_antisymm hle' hle]
      rfl
  · refine fit_singleton (.plain (.set ?_)) (by rw [Pattern.language, chars_digitRange (hle.trans hhi) hhi])
    simp only [List.mem_singleton, forall_eq, UInt32.le_iff_toNat_le, toNat_digitCode hhi,
      toNat_digitCode (hle.trans hhi)]
    omega

/-- The greatest number of digits that can be counted. -/
abbrev digitLimit : Nat := Ebnf.Quantifier.limit

theorem wellFormed_anyDigit : anyDigit.WellFormed .element := by
  cases (fit_digitBetween (Nat.zero_le 9) le_rfl).wellFormed _ List.mem_cons_self with
  | plain h => exact h

theorem language_anyDigit : anyDigit.language = Language.single {c | c.isDigit = true} := by
  have := (fit_digitBetween (Nat.zero_le 9) le_rfl).language
  rw [sequenceLanguage, sequenceLanguage, mul_one] at this
  rw [anyDigit, this]
  congr 1
  ext c
  exact ⟨fun h => h.1, fun h => ⟨h, Nat.zero_le _, digitOf_le h⟩⟩

theorem fit_anyDigits {n : Nat} (hn : n ≤ digitLimit) : Fit [anyDigits n] (digitsBetween n 0 (10 ^ n - 1)) := by
  refine fit_singleton (.quantified wellFormed_anyDigit ?_) ?_
  · rw [Ebnf.Quantifier.Fits, Quantifier.bounds_toEbnf _ |>.1, Quantifier.bounds_toEbnf _ |>.2]
    refine ⟨hn, ?_⟩
    rintro _ ⟨⟩
    exact ⟨le_rfl, hn⟩
  · rw [anyDigits, Pattern.language, language_anyDigit]
    exact (Language.copies_exactly _ n).trans (single_pow n)

/-- A digit between two, and then any digits. -/
theorem fit_digitThenAny {lo hi n : Nat} (hle : lo ≤ hi) (hhi : hi ≤ 9) (hn : n ≤ digitLimit) :
    Fit [digitBetween lo hi, anyDigits n] (digitsBetween (n + 1) (lo * 10 ^ n) (hi * 10 ^ n + (10 ^ n - 1))) := by
  rw [← single_mul_digitsBetween]
  exact (fit_digitBetween hle hhi).append (fit_anyDigits hn)

/-! ## Numbers of one length -/

/-- The number that a list of digits stands for. -/
def number : List Nat → Nat
  | [] => 0
  | d :: ds => d * 10 ^ ds.length + number ds

theorem number_lt {ds : List Nat} (h : ∀ d ∈ ds, d ≤ 9) : number ds < 10 ^ ds.length := by
  induction ds with
  | nil => simp [number]
  | cons d ds ih =>
    obtain ⟨hd, hds⟩ := List.forall_mem_cons.1 h
    have := ih hds
    rw [number, List.length_cons, Nat.pow_succ]
    nlinarith

@[simp] theorem number_zeros (n : Nat) : number (List.replicate n 0) = 0 := by
  induction n with
  | zero => rfl
  | succ n ih => rw [List.replicate_succ, number, ih, Nat.zero_mul]

@[simp] theorem number_nines (n : Nat) : number (List.replicate n 9) = 10 ^ n - 1 := by
  induction n with
  | zero => rfl
  | succ n ih =>
    have := Nat.pow_pos (n := n) (show 0 < 10 by decide)
    rw [List.replicate_succ, number, ih, List.length_replicate, Nat.pow_succ]
    omega

/-- A digit, and then numbers of one length after it. -/
theorem Fit.digit {d n x y : Nat} (h : Fit ps (digitsBetween n x y)) (hd : d ≤ 9) (hy : y < 10 ^ n) :
    Fit (.char (digitChar d) :: ps) (digitsBetween (n + 1) (d * 10 ^ n + x) (d * 10 ^ n + y)) := by
  rw [← singleton_mul_digitsBetween hd hy]
  exact h.char _

/-- Bounds of one length as lists of digits, in order and with no more digits than can be counted. -/
structure DigitBounds (ls hs : List Nat) : Prop where
  length_eq : ls.length = hs.length
  nonempty : ls ≠ []
  lower : ∀ d ∈ ls, d ≤ 9
  upper : ∀ d ∈ hs, d ≤ 9
  le : number ls ≤ number hs
  limit : ls.length ≤ digitLimit

namespace DigitBounds

variable {lo hi : Nat} {los his : List Nat}

theorem replicate_le {n e : Nat} (he : e ≤ 9) : ∀ d ∈ List.replicate n e, d ≤ 9 := fun _ hd =>
  (List.eq_of_mem_replicate hd).le.trans he

theorem tail (h : DigitBounds (lo :: los) (lo :: his)) (hlos : los ≠ []) : DigitBounds los his := by
  have hlen : los.length = his.length := Nat.succ.inj h.length_eq
  have hle := h.le
  rw [number, number, hlen] at hle
  exact ⟨hlen, hlos, (List.forall_mem_cons.1 h.lower).2, (List.forall_mem_cons.1 h.upper).2, by omega,
    Nat.le_of_succ_le h.limit⟩

/-- The digits after the first one are at most nines. -/
theorem first (h : DigitBounds (lo :: los) (hi :: his)) (hlos : los ≠ []) :
    DigitBounds los (List.replicate los.length 9) := by
  have hlower := (List.forall_mem_cons.1 h.lower).2
  refine ⟨by simp, hlos, hlower, replicate_le le_rfl, ?_, Nat.le_of_succ_le h.limit⟩
  have := number_lt hlower
  rw [number_nines]
  omega

/-- The digits after the first one are at least zeros. -/
theorem last (h : DigitBounds (lo :: los) (hi :: his)) (hlos : los ≠ []) :
    DigitBounds (List.replicate los.length 0) his := by
  have hlen : los.length = his.length := Nat.succ.inj h.length_eq
  refine ⟨by simpa using hlen, by simpa using hlos, replicate_le (Nat.zero_le _), (List.forall_mem_cons.1 h.upper).2,
    by simp, ?_⟩
  rw [List.length_replicate]
  exact Nat.le_of_succ_le h.limit

theorem number_upper_lt (h : DigitBounds (lo :: los) (hi :: his)) : number his < 10 ^ los.length := by
  rw [Nat.succ.inj h.length_eq]
  exact number_lt (List.forall_mem_cons.1 h.upper).2

theorem head_lt (h : DigitBounds (lo :: los) (hi :: his)) (hne : lo ≠ hi) : lo < hi := by
  have hle := h.le
  have hupper := h.number_upper_lt
  rw [number, number, ← Nat.succ.inj h.length_eq] at hle
  by_contra hlt
  have := Nat.mul_le_mul_right (10 ^ los.length) (Nat.succ_le_of_lt (show hi < lo by omega))
  rw [Nat.succ_mul] at this
  omega

theorem head_le (h : DigitBounds (lo :: los) (hi :: his)) : lo ≤ 9 ∧ hi ≤ 9 :=
  ⟨h.lower lo List.mem_cons_self, h.upper hi List.mem_cons_self⟩

theorem number_cons_le (h : DigitBounds (lo :: los) (hi :: his)) : number (lo :: los) ≤ (lo + 1) * 10 ^ los.length := by
  have := number_lt (List.forall_mem_cons.1 h.lower).2
  rw [number, Nat.succ_mul]
  omega

theorem le_number_cons (h : DigitBounds (lo :: los) (hi :: his)) : hi * 10 ^ los.length ≤ number (hi :: his) := by
  rw [number, Nat.succ.inj h.length_eq]
  exact Nat.le_add_right _ _

/-- The numbers from the lower bound on that start with its first digit. -/
theorem fit_first (h : DigitBounds (lo :: los) (hi :: his))
    (hfit : Fit (sameLength los (List.replicate los.length 9))
      (digitsBetween los.length (number los) (number (List.replicate los.length 9)))) :
    Fit (.char (digitChar lo) :: sameLength los (List.replicate los.length 9)) (digitsBetween (los.length + 1)
      (number (lo :: los)) (lo * 10 ^ los.length + (10 ^ los.length - 1))) := by
  have := Nat.pow_pos (n := los.length) (show 0 < 10 by decide)
  rw [number_nines] at hfit
  exact hfit.digit h.head_le.1 (by omega)

/-- The numbers up to the upper bound that start with its first digit. -/
theorem fit_last (h : DigitBounds (lo :: los) (hi :: his))
    (hfit : Fit (sameLength (List.replicate los.length 0) his) (digitsBetween (List.replicate los.length 0).length
      (number (List.replicate los.length 0)) (number his))) :
    Fit (.char (digitChar hi) :: sameLength (List.replicate los.length 0) his) (digitsBetween (los.length + 1)
      (hi * 10 ^ los.length) (number (hi :: his))) := by
  rw [number_zeros, List.length_replicate] at hfit
  rw [number, ← Nat.succ.inj h.length_eq]
  exact hfit.digit h.head_le.2 h.number_upper_lt

end DigitBounds

/-- A range is cut where the first digit changes. -/
theorem digitsBetween_cut {n k d a b : Nat} (ha : a ≤ (d + 1) * 10 ^ k) (hb : (d + 1) * 10 ^ k ≤ b) :
    digitsBetween n a (d * 10 ^ k + (10 ^ k - 1)) + digitsBetween n ((d + 1) * 10 ^ k) b = digitsBetween n a b := by
  have := Nat.pow_pos (n := k) (show 0 < 10 by decide)
  rw [Nat.succ_mul] at ha hb ⊢
  rw [show d * 10 ^ k + 10 ^ k = d * 10 ^ k + (10 ^ k - 1) + 1 by omega]
  exact digitsBetween_add (by omega) (by omega)

/-- The digits of a length are matched between two numbers of that length. -/
theorem fit_sameLength (ls hs : List Nat) (h : DigitBounds ls hs) :
    Fit (sameLength ls hs) (digitsBetween ls.length (number ls) (number hs)) := by
  fun_induction sameLength ls hs with
  | case1 lo hi tail =>
    obtain rfl : tail = [] := List.length_eq_zero_iff.1 (Nat.succ.inj h.length_eq).symm
    have := fit_digitBetween (by simpa [number] using h.le) h.head_le.2
    have language := single_mul_digitsBetween lo hi 0
    simp only [Nat.pow_zero, Nat.sub_self, digitsBetween_zero, mul_one, Nat.add_zero] at language
    rw [language] at this
    simpa [number] using this
  | case2 los hi his hlos ih =>
    rw [number, number, ← Nat.succ.inj h.length_eq]
    exact (ih (h.tail hlos)).digit h.head_le.1 h.number_upper_lt
  | case3 lo los hi his hlos n hdiffer hall =>
    have hlen : los.length = his.length := Nat.succ.inj h.length_eq
    have hzeros : number los = 0 := by
      have : los = List.replicate los.length 0 := List.eq_replicate_iff.2 ⟨rfl, by simpa using hall.1⟩
      rw [this, number_zeros]
    have hnines : number his = 10 ^ los.length - 1 := by
      have : his = List.replicate his.length 9 := List.eq_replicate_iff.2 ⟨rfl, by simpa using hall.2⟩
      rw [this, number_nines, hlen]
    rw [number, number, hzeros, hnines, ← hlen]
    exact fit_digitThenAny (h.head_lt hdiffer).le h.head_le.2 (Nat.le_of_succ_le h.limit)
  | case4 lo los hi his hlos n hdiffer hall first last hgap ih ih' =>
    have hmiddle := fit_digitThenAny (n := los.length) (show lo + 1 ≤ hi - 1 by omega)
      (by have := h.head_le.2; omega) (Nat.le_of_succ_le h.limit)
    have := fit_oneOf (by simp) (.cons (h.fit_first (ih (h.first hlos))) (.cons hmiddle
      (.cons (h.fit_last (ih' (h.last hlos))) .nil)))
    rw [List.sum_cons, List.sum_cons, List.sum_cons, List.sum_nil, add_zero] at this
    have hlower := h.number_cons_le
    have hnext := Nat.mul_le_mul_right (10 ^ los.length) (show lo + 1 ≤ hi by omega)
    have hlast := digitsBetween_cut (n := los.length + 1) (k := los.length) (d := hi - 1) (a := (lo + 1) * 10 ^ los.length)
      (b := number (hi :: his))
    rw [Nat.sub_add_cancel (by omega)] at hlast
    rwa [hlast hnext h.le_number_cons, digitsBetween_cut hlower (hnext.trans h.le_number_cons)] at this
  | case5 lo los hi his hlos n hdiffer hall first last hgap ih ih' =>
    obtain rfl : hi = lo + 1 := by
      have := h.head_lt hdiffer
      omega
    have := fit_oneOf (by simp) (.cons (h.fit_first (ih (h.first hlos)))
      (.cons (h.fit_last (ih' (h.last hlos))) .nil))
    rw [List.sum_cons, List.sum_cons, List.sum_nil, add_zero] at this
    rwa [digitsBetween_cut h.number_cons_le h.le_number_cons] at this
  | case6 ls hs hone hcons =>
    match ls, hs with
    | [], _ => exact absurd rfl h.nonempty
    | _ :: _, [] => cases h.length_eq
    | lo :: los, hi :: his => exact (hcons lo los hi his rfl rfl).elim

/-! ## Natural numbers -/

/-- The number of decimal digits of a number. -/
def digitCount (n : Nat) : Nat := (Nat.toDigits 10 n).length

theorem digitCount_pos (n : Nat) : 0 < digitCount n := Nat.length_toDigits_pos

theorem lt_pow_digitCount (n : Nat) : n < 10 ^ digitCount n :=
  (Nat.length_toDigits_le_iff (by decide) (digitCount_pos n)).1 le_rfl

theorem pow_digitCount_le (n : Nat) : digitCount n = 1 ∨ 10 ^ (digitCount n - 1) ≤ n := by
  have hpos := digitCount_pos n
  by_contra h
  have := (Nat.length_toDigits_le_iff (b := 10) (n := n) (k := digitCount n - 1) (by decide) (by omega)).2 (by omega)
  rw [digitCount] at *
  omega

theorem digitCount_mono {m n : Nat} (h : m ≤ n) : digitCount m ≤ digitCount n :=
  (Nat.length_toDigits_le_iff (by decide) (digitCount_pos n)).2 (h.trans_lt (lt_pow_digitCount n))

@[simp] theorem length_decimalDigits (n : Nat) : (decimalDigits n).length = digitCount n := by
  rw [decimalDigits, List.length_map, digitCount]

theorem number_map_digitOf (text : List Char) : number (text.map digitOf) = decimal text := by
  induction text with
  | nil => rfl
  | cons c text ih => rw [List.map_cons, number, decimal_cons, ih, List.length_map]

@[simp] theorem number_decimalDigits (n : Nat) : number (decimalDigits n) = n :=
  (number_map_digitOf _).trans (decimal_toDigits n)

theorem decimalDigits_le (n : Nat) : ∀ d ∈ decimalDigits n, d ≤ 9 :=
  List.forall_mem_map.2 fun c hc => digitOf_le (allDigits_toDigits n c hc)

/-- The numbers of one length between two. -/
theorem fit_numerals {ls hs : List Nat} (h : DigitBounds ls hs)
    (hlo : ls.length = 1 ∨ 10 ^ (ls.length - 1) ≤ number ls) :
    Fit (sameLength ls hs) (numerals fun v => number ls ≤ v ∧ v < number hs + 1) := by
  have hhi := number_lt h.upper
  rw [← h.length_eq] at hhi
  have := fit_sameLength ls hs h
  rw [digitsBetween_eq_numerals (List.length_pos_iff.2 h.nonempty) hlo hhi] at this
  simpa only [Nat.lt_succ_iff] using this

/-- The numbers of `k` digits. -/
theorem fit_ofLength {k : Nat} (hk : 1 < k) (hlimit : k ≤ digitLimit) :
    Fit (ofLength k) (numerals fun v => 10 ^ (k - 1) ≤ v ∧ v < 10 ^ k) := by
  have := fit_digitThenAny (n := k - 1) (show 1 ≤ 9 by decide) le_rfl (by omega)
  have hpow : 10 ^ k = 10 * 10 ^ (k - 1) := by
    rw [← Nat.pow_succ', Nat.succ_eq_add_one, Nat.sub_add_cancel hk.le]
  have hpos := Nat.pow_pos (n := k - 1) (show 0 < 10 by decide)
  rw [Nat.sub_add_cancel hk.le, Nat.one_mul,
    digitsBetween_eq_numerals (Nat.zero_lt_of_lt hk) (Or.inr le_rfl) (by omega)] at this
  rw [ofLength]
  convert this using 1
  exact numerals_congr fun v => by omega

/-- Ranges of numbers that touch are one. -/
theorem numerals_join {a b c : Nat} (hab : a ≤ b) (hbc : b ≤ c) :
    numerals (fun v => a ≤ v ∧ v < b) + numerals (fun v => b ≤ v ∧ v < c) = numerals fun v => a ≤ v ∧ v < c := by
  rw [numerals_add]
  exact numerals_congr fun n => by omega

/-- The numbers with more digits than one number and fewer than another. -/
theorem sum_lengths (k c : Nat) : ((List.range' (k + 1) c).map fun j => numerals fun v => 10 ^ (j - 1) ≤ v ∧ v < 10 ^ j).sum =
    numerals fun v => 10 ^ k ≤ v ∧ v < 10 ^ (k + c) := by
  induction c generalizing k with
  | zero => simp [numerals_false]
  | succ c ih =>
    rw [List.range'_succ, List.map_cons, List.sum_cons, ih, Nat.add_sub_cancel,
      numerals_join (Nat.pow_le_pow_right (by decide) (by omega)) (Nat.pow_le_pow_right (by decide) (by omega))]
    rw [show k + 1 + c = k + (c + 1) by omega]

/-- The digits of a number and as many nines. -/
theorem digitBounds_nines {n : Nat} (h : digitCount n ≤ digitLimit) :
    DigitBounds (decimalDigits n) (List.replicate (digitCount n) 9) := by
  have := lt_pow_digitCount n
  exact ⟨by simp, by simp [decimalDigits], decimalDigits_le n, DigitBounds.replicate_le le_rfl, by simp; omega,
    by simpa using h⟩

/-- The patterns between two natural numbers match the decimal texts of those between them. -/
theorem fit_naturalsBetween {lo hi : Nat} (hle : lo ≤ hi) (hlimit : digitCount hi ≤ digitLimit) :
    Fit (naturalsBetween lo hi) (numerals fun v => lo ≤ v ∧ v ≤ hi) := by
  have hcount := digitCount_mono hle
  rw [numerals_congr fun v => show lo ≤ v ∧ v ≤ hi ↔ lo ≤ v ∧ v < hi + 1 by omega]
  unfold naturalsBetween
  simp only [length_decimalDigits]
  split
  · rename_i hlen
    have bounds : DigitBounds (decimalDigits lo) (decimalDigits hi) :=
      ⟨by simpa using hlen, by simp [decimalDigits], decimalDigits_le lo, decimalDigits_le hi, by simpa using hle,
        by simp; omega⟩
    simpa using fit_numerals bounds (by simpa using pow_digitCount_le lo)
  · rename_i hlen
    have hpos := digitCount_pos lo
    have hlt := lt_pow_digitCount lo
    have hhi := (pow_digitCount_le hi).resolve_left (by omega)
    have hpow : 10 ^ digitCount lo ≤ 10 ^ (digitCount hi - 1) := Nat.pow_le_pow_right (by decide) (by omega)
    have hfirst := fit_numerals (digitBounds_nines (hcount.trans hlimit)) (by simpa using pow_digitCount_le lo)
    have bounds : DigitBounds (1 :: List.replicate (digitCount hi - 1) 0) (decimalDigits hi) :=
      ⟨by simp; omega, by simp, by simp, decimalDigits_le hi,
        by simpa [number] using hhi, by simp; omega⟩
    have hlast := fit_numerals bounds (by simp [number])
    simp only [number_decimalDigits, number_nines, number, List.length_replicate, number_zeros, Nat.one_mul,
      Nat.add_zero] at hfirst hlast
    rw [Nat.sub_add_cancel (Nat.pow_pos (by decide))] at hfirst
    have hmiddle : List.Forall₂ Fit ((List.range' (digitCount lo + 1) (digitCount hi - digitCount lo - 1)).map ofLength)
        ((List.range' (digitCount lo + 1) (digitCount hi - digitCount lo - 1)).map fun j =>
          numerals fun v => 10 ^ (j - 1) ≤ v ∧ v < 10 ^ j) := by
      rw [List.forall₂_map_left_iff, List.forall₂_map_right_iff, List.forall₂_same]
      intro j hj
      rw [List.mem_range'_1] at hj
      exact fit_ofLength (by omega) (by omega)
    have := fit_oneOf (by simp) (.cons hfirst (List.rel_append hmiddle (.cons hlast .nil)))
    rw [List.sum_cons, List.sum_append, sum_lengths, List.sum_singleton,
      show digitCount lo + (digitCount hi - digitCount lo - 1) = digitCount hi - 1 by omega,
      numerals_join hpow (by omega), numerals_join (by omega) (by omega)] at this
    exact this

/-- Any digit that is not zero, and then so many digits or more. -/
theorem fit_nonzero {q : Quantifier} {k : Nat} (hq : q.least = k ∧ q.most = none) (hk : k ≤ digitLimit) :
    Fit [digitBetween 1 9, .quantified anyDigit q] (numerals fun v => 10 ^ k ≤ v) := by
  rw [← nonzero_mul_copies]
  refine (fit_digitBetween (by decide) le_rfl).append (fit_singleton (.quantified wellFormed_anyDigit ?_) ?_)
  · rw [Ebnf.Quantifier.Fits, q.bounds_toEbnf.1, q.bounds_toEbnf.2, hq.1, hq.2]
    exact ⟨hk, nofun⟩
  · rw [Pattern.language, language_anyDigit, hq.1, hq.2]

/-- The patterns for natural numbers match the decimal texts of all of them. -/
theorem fit_anyNatural : Fit anyNatural (numerals fun _ => True) := by
  have hzero : Fit [.char '0'] (numerals fun v => v = 0) := by
    refine fit_singleton (.plain .char) ?_
    rw [Pattern.language]
    ext text
    exact ⟨fun h => ⟨0, rfl, h⟩, by rintro ⟨_, rfl, h⟩; exact h⟩
  have := fit_oneOf (by simp) (.cons hzero (.cons (fit_nonzero (q := .star) (k := 0) ⟨rfl, rfl⟩ (Nat.zero_le _)) .nil))
  rw [List.sum_cons, List.sum_singleton, numerals_add, Nat.pow_zero] at this
  rw [numerals_congr fun v => iff_of_true trivial (Nat.eq_zero_or_pos v)]
  exact this

/-- The patterns from a natural number on match the decimal texts of those that are not less. -/
theorem fit_naturalsFrom {lo : Nat} (hlimit : digitCount lo ≤ digitLimit) :
    Fit (naturalsFrom lo) (numerals fun v => lo ≤ v) := by
  unfold naturalsFrom
  split
  · rename_i hzero
    subst hzero
    simpa using fit_anyNatural
  · have hlt := lt_pow_digitCount lo
    have hfirst := fit_numerals (digitBounds_nines hlimit) (by simpa using pow_digitCount_le lo)
    simp only [number_decimalDigits, number_nines, Nat.sub_add_cancel (Nat.pow_pos (n := digitCount lo) (show 0 < 10 by decide))] at hfirst
    have hrest := fit_nonzero (q := .range (digitCount lo) none) (k := digitCount lo) ⟨rfl, rfl⟩ hlimit
    have := fit_oneOf (by simp) (.cons hfirst (.cons hrest .nil))
    rw [List.sum_cons, List.sum_singleton, numerals_add] at this
    simp only [length_decimalDigits]
    convert this using 1
    exact numerals_congr fun v => by omega

/-! ## Integers -/

/-- The decimal texts of the integers that have a property. -/
def signed (P : Int → Prop) : Language Char :=
  numerals (fun n => P n) + {['-']} * numerals fun n => 0 < n ∧ P (-n)

/-- An integer is between two bounds, each of which may be absent. -/
def Within (lo hi : Option Int) (z : Int) : Prop := (∀ l ∈ lo, l ≤ z) ∧ ∀ h ∈ hi, z ≤ h

/-- The digits of an integer's magnitude can be counted. -/
def Countable (z : Int) : Prop := digitCount z.natAbs ≤ digitLimit

theorem fit_negative (h : Fit ps K) : Fit (negative ps) ({['-']} * K) := h.char '-'

/-- Integers of either sign. -/
theorem signed_eq {P : Int → Prop} {Q R : Nat → Prop} (hQ : ∀ n : Nat, P n ↔ Q n)
    (hR : ∀ n : Nat, 0 < n ∧ P (-n) ↔ R n) : signed P = numerals Q + {['-']} * numerals R := by
  rw [signed, numerals_congr hQ, numerals_congr hR]

theorem fit_below {P : Int → Prop} {Q : Nat → Prop} (hQ : ∀ n : Nat, Q n ↔ 0 < n ∧ P (-n)) (hP : ∀ n : Nat, ¬ P n)
    (h : Fit ps (numerals Q)) : Fit (negative ps) (signed P) := by
  rw [signed_eq (Q := fun _ => False) (fun n => by simp [hP n]) fun n => (hQ n).symm,
    numerals_false fun _ h => h, zero_add]
  exact fit_negative h

theorem fit_above {P : Int → Prop} {Q : Nat → Prop} (hQ : ∀ n : Nat, Q n ↔ P n) (hP : ∀ n : Nat, 0 < n → ¬ P (-n))
    (h : Fit ps (numerals Q)) : Fit ps (signed P) := by
  rw [signed_eq (R := fun _ => False) (fun n => (hQ n).symm) fun n => by simpa using hP n,
    numerals_false (P := fun _ => False) fun _ h => h, mul_zero, add_zero]
  exact h

theorem fit_either {P : Int → Prop} {Q R : Nat → Prop} (hQ : ∀ n : Nat, Q n ↔ 0 < n ∧ P (-n))
    (hR : ∀ n : Nat, R n ↔ P n) (h : Fit ps (numerals Q)) (h' : Fit qs (numerals R)) :
    Fit (oneOf [negative ps, qs]) (signed P) := by
  rw [signed_eq (fun n => (hR n).symm) fun n => (hQ n).symm, add_comm]
  simpa using fit_oneOf (by simp) (.cons (fit_negative h) (.cons h' .nil))

/-- The patterns between bounds in order match the decimal texts of the integers between them. -/
theorem fit_integersBetween {lo hi : Option Int} (hsome : lo ≠ none ∨ hi ≠ none) (hle : ∀ l ∈ lo, ∀ h ∈ hi, l ≤ h)
    (hlo : ∀ l ∈ lo, Countable l) (hhi : ∀ h ∈ hi, Countable h) :
    Fit (integersBetween lo hi) (signed (Within lo hi)) := by
  have one : digitCount 1 ≤ digitLimit := by decide
  match lo, hi with
  | none, none => simp at hsome
  | some lo, some hi =>
    have hle : lo ≤ hi := hle lo rfl hi rfl
    have hlo : digitCount lo.natAbs ≤ digitLimit := hlo lo rfl
    have hhi : digitCount hi.natAbs ≤ digitLimit := hhi hi rfl
    simp only [integersBetween]
    have hcount : 0 ≤ hi → digitCount hi.toNat ≤ digitLimit := fun hpos => by
      rwa [show hi.toNat = hi.natAbs by omega]
    by_cases hneg : lo < 0 <;> by_cases hpos : 0 ≤ hi
    · simp only [hneg, hpos, if_true, show ¬ hi < 0 by omega, if_false, List.singleton_append]
      exact fit_either (fun n => by simp [Within]; omega) (fun n => by simp [Within]; omega)
        (fit_naturalsBetween (by omega) hlo) (fit_naturalsBetween (by omega) (hcount hpos))
    · simp only [hneg, hpos, if_true, show hi < 0 by omega, if_false, List.append_nil, oneOf]
      exact fit_below (fun n => by simp [Within]; omega) (fun n => by simp [Within]; omega)
        (fit_naturalsBetween (by omega) hlo)
    · simp only [hneg, hpos, if_true, if_false, List.nil_append, oneOf]
      exact fit_above (fun n => by simp [Within]; omega) (fun n hn => by simp [Within]; omega)
        (fit_naturalsBetween (by omega) (hcount hpos))
    · omega
  | some lo, none =>
    have hlo : digitCount lo.natAbs ≤ digitLimit := hlo lo rfl
    simp only [integersBetween]
    split
    · have hcount : digitCount lo.toNat ≤ digitLimit := by
        rwa [show lo.toNat = lo.natAbs by omega]
      exact fit_above (fun n => by simp [Within]) (fun n hn => by simp [Within]; omega) (fit_naturalsFrom hcount)
    · exact fit_either (fun n => by simp [Within]; omega) (fun n => by simp [Within]; omega)
        (fit_naturalsBetween (by omega) hlo) (fit_naturalsFrom (by decide))
  | none, some hi =>
    have hhi : digitCount hi.natAbs ≤ digitLimit := hhi hi rfl
    simp only [integersBetween]
    split
    · have hcount : digitCount hi.toNat ≤ digitLimit := by
        rwa [show hi.toNat = hi.natAbs by omega]
      exact fit_either (fun n => by simp [Within]; omega) (fun n => by simp [Within]; omega)
        (fit_nonzero (q := .star) (k := 0) ⟨rfl, rfl⟩ (Nat.zero_le _)) (fit_naturalsBetween (Nat.zero_le _) hcount)
    · exact fit_below (fun n => by simp [Within]; omega) (fun n => by simp [Within]; omega) (fit_naturalsFrom hhi)

end ConstrainedDecoding.Regex
