import ConstrainedDecoding.Proofs.CharLanguages
import ConstrainedDecoding.Proofs.Escapes
import ConstrainedDecoding.Regex.IntegerRange
import Mathlib.Tactic.Ring

/-!
# Texts of digits

The digit texts of one length, by the number that they spell, and the decimal texts of natural numbers.
Both are put together digit by digit and range by range.
-/
namespace ConstrainedDecoding.Regex

open Computability

/-! ## Numbers that digits spell -/

/-- The number that digits spell. -/
def decimal (text : List Char) : Nat := Nat.ofDigitChars 10 text 0

/-- All characters are digits. -/
def AllDigits (text : List Char) : Prop := ∀ c ∈ text, c.isDigit = true

/-- The digit of a character. -/
def digitOf (c : Char) : Nat := c.toNat - 48

variable {c : Char} {text : List Char} {d n lo hi : Nat}

theorem decimal_cons (c : Char) (text : List Char) :
    decimal (c :: text) = digitOf c * 10 ^ text.length + decimal text := by
  rw [decimal, Nat.ofDigitChars_cons, Nat.ofDigitChars_eq_ofDigitChars_zero, Nat.mul_zero, Nat.zero_add,
    Nat.mul_comm]
  rfl

@[simp] theorem decimal_toDigits (n : Nat) : decimal (Nat.toDigits 10 n) = n := Nat.ofDigitChars_ten_toDigits

theorem allDigits_toDigits (n : Nat) : AllDigits (Nat.toDigits 10 n) := fun _ hc =>
  Nat.isDigit_of_mem_toDigits (by decide) (by decide) hc

theorem isDigit_iff : c.isDigit = true ↔ 48 ≤ c.toNat ∧ c.toNat ≤ 57 := by
  simp only [Char.isDigit, Bool.and_eq_true, decide_eq_true_eq, ge_iff_le, UInt32.le_iff_toNat_le]
  exact Iff.rfl

theorem digitOf_le (h : c.isDigit = true) : digitOf c ≤ 9 := by
  rw [isDigit_iff] at h
  rw [digitOf]
  omega

theorem toNat_digitChar (hd : d ≤ 9) : (digitChar d).toNat = 48 + d :=
  Ebnf.toNat_charOfNat (Or.inl (by omega))

theorem isDigit_digitChar (hd : d ≤ 9) : (digitChar d).isDigit = true := by
  rw [isDigit_iff, toNat_digitChar hd]
  omega

@[simp] theorem digitOf_digitChar (hd : d ≤ 9) : digitOf (digitChar d) = d := by
  rw [digitOf, toNat_digitChar hd]
  omega

@[simp] theorem digitChar_digitOf (h : c.isDigit = true) : digitChar (digitOf c) = c := by
  have hle := digitOf_le h
  rw [isDigit_iff] at h
  rw [← Char.toNat_inj, toNat_digitChar hle, digitOf]
  omega

theorem decimal_lt (h : AllDigits text) : decimal text < 10 ^ text.length := by
  induction text with
  | nil => simp [decimal]
  | cons c text ih =>
    obtain ⟨hc, htext⟩ := List.forall_mem_cons.1 h
    have := digitOf_le hc
    have := ih htext
    rw [decimal_cons, List.length_cons, Nat.pow_succ]
    nlinarith

/-- A number below a power of ten and a multiple of the power do not interfere. -/
theorem eq_of_digit {p a b x y : Nat} (hx : x < p) (hy : y < p) (h : a * p + x = b * p + y) : a = b ∧ x = y := by
  have hp : 0 < p := by omega
  have hdiv := congrArg (· / p) h
  simp only [Nat.add_comm _ x, Nat.add_comm _ y, Nat.add_mul_div_right _ _ hp, Nat.div_eq_of_lt hx,
    Nat.div_eq_of_lt hy, Nat.zero_add] at hdiv
  subst hdiv
  exact ⟨rfl, Nat.add_left_cancel h⟩

/-- Digit texts of one length spell different numbers. -/
theorem eq_of_decimal_eq {text' : List Char} (h : AllDigits text) (h' : AllDigits text')
    (hlen : text.length = text'.length) (heq : decimal text = decimal text') : text = text' := by
  induction text generalizing text' with
  | nil => exact (List.length_eq_zero_iff.1 hlen.symm).symm
  | cons c text ih =>
    cases text' with
    | nil => cases hlen
    | cons c' text' =>
      obtain ⟨hc, htext⟩ := List.forall_mem_cons.1 h
      obtain ⟨hc', htext'⟩ := List.forall_mem_cons.1 h'
      have hlen : text.length = text'.length := Nat.succ.inj hlen
      rw [decimal_cons, decimal_cons, ← hlen] at heq
      obtain ⟨hdigit, hrest⟩ := eq_of_digit (decimal_lt htext) (hlen ▸ decimal_lt htext') heq
      rw [← digitChar_digitOf hc, ← digitChar_digitOf hc', hdigit, ih htext htext' hlen hrest]

/-! ## Digit texts of one length -/

/-- The texts of so many digits that spell a number between two. -/
def digitsBetween (n lo hi : Nat) : Language Char :=
  {text | text.length = n ∧ AllDigits text ∧ lo ≤ decimal text ∧ decimal text ≤ hi}

theorem mem_digitsBetween : text ∈ digitsBetween n lo hi ↔
    text.length = n ∧ AllDigits text ∧ lo ≤ decimal text ∧ decimal text ≤ hi := Iff.rfl

/-- All the texts of so many digits. -/
theorem digitsBetween_all (n : Nat) : digitsBetween n 0 (10 ^ n - 1) = {text | text.length = n ∧ AllDigits text} := by
  ext text
  refine ⟨fun h => ⟨h.1, h.2.1⟩, fun h => ⟨h.1, h.2, Nat.zero_le _, ?_⟩⟩
  have := decimal_lt h.2
  rw [h.1] at this
  omega

theorem digitsBetween_zero : digitsBetween 0 0 0 = 1 := by
  ext text
  constructor
  · rintro ⟨hlen, -⟩
    exact List.length_eq_zero_iff.1 hlen
  · rintro rfl
    exact ⟨rfl, nofun, le_rfl, le_rfl⟩

/-- A first digit between two, and then all digits. -/
theorem single_mul_digitsBetween (a b n : Nat) :
    Language.single {c | c.isDigit = true ∧ a ≤ digitOf c ∧ digitOf c ≤ b} * digitsBetween n 0 (10 ^ n - 1) =
      digitsBetween (n + 1) (a * 10 ^ n) (b * 10 ^ n + (10 ^ n - 1)) := by
  rw [digitsBetween_all]
  ext text
  constructor
  · rintro ⟨_, ⟨c, ⟨hc, ha, hb⟩, rfl⟩, text, ⟨rfl, htext⟩, rfl⟩
    have hlt := decimal_lt htext
    refine ⟨rfl, List.forall_mem_cons.2 ⟨hc, htext⟩, ?_⟩
    change _ ≤ decimal (c :: text) ∧ decimal (c :: text) ≤ _
    rw [decimal_cons]
    exact ⟨(Nat.mul_le_mul_right _ ha).trans (Nat.le_add_right _ _),
      Nat.add_le_add (Nat.mul_le_mul_right _ hb) (by omega)⟩
  · rintro ⟨hlen, hall, hlo, hhi⟩
    match text with
    | c :: text =>
      obtain ⟨hc, htext⟩ := List.forall_mem_cons.1 hall
      obtain rfl : text.length = n := by simpa using hlen
      have hlt := decimal_lt htext
      rw [decimal_cons] at hlo hhi
      refine ⟨[c], ⟨c, ⟨hc, ?_, ?_⟩, rfl⟩, text, ⟨rfl, htext⟩, rfl⟩
      · by_contra h
        nlinarith
      · by_contra h
        have : (b + 1) * 10 ^ text.length ≤ digitOf c * 10 ^ text.length := Nat.mul_le_mul_right _ (by omega)
        rw [Nat.add_mul] at this
        omega

/-- Any digits, one after the other. -/
theorem single_pow (n : Nat) : Language.single {c | c.isDigit = true} ^ n = digitsBetween n 0 (10 ^ n - 1) := by
  have single : Language.single {c | c.isDigit = true} =
      Language.single {c | c.isDigit = true ∧ 0 ≤ digitOf c ∧ digitOf c ≤ 9} := by
    congr 1
    ext c
    exact ⟨fun h => ⟨h, Nat.zero_le _, digitOf_le h⟩, fun h => h.1⟩
  induction n with
  | zero => exact digitsBetween_zero.symm
  | succ n ih =>
    have := Nat.pow_pos (n := n) (show 0 < 10 by decide)
    rw [pow_succ', ih, single, single_mul_digitsBetween]
    congr 1
    · omega
    · rw [Nat.pow_succ]
      omega

/-- A given first digit. -/
theorem singleton_mul_digitsBetween (hd : d ≤ 9) {x y : Nat} (hy : y < 10 ^ n) :
    {[digitChar d]} * digitsBetween n x y = digitsBetween (n + 1) (d * 10 ^ n + x) (d * 10 ^ n + y) := by
  ext text
  rw [Language.mem_singleton_mul]
  constructor
  · rintro ⟨text, ⟨rfl, htext, hx, hy⟩, rfl⟩
    refine ⟨rfl, List.forall_mem_cons.2 ⟨isDigit_digitChar hd, htext⟩, ?_⟩
    rw [List.singleton_append, decimal_cons, digitOf_digitChar hd]
    exact ⟨Nat.add_le_add_left hx _, Nat.add_le_add_left hy _⟩
  · rintro ⟨hlen, hall, hlo, hhi⟩
    match text with
    | c :: text =>
      obtain ⟨hc, htext⟩ := List.forall_mem_cons.1 hall
      obtain rfl : text.length = n := by simpa using hlen
      have hlt := decimal_lt htext
      rw [decimal_cons] at hlo hhi
      obtain rfl : digitOf c = d := by
        rcases Nat.lt_trichotomy (digitOf c) d with h | h | h
        · have := Nat.mul_le_mul_right (10 ^ text.length) (Nat.succ_le_of_lt h)
          rw [Nat.succ_mul] at this
          omega
        · exact h
        · have := Nat.mul_le_mul_right (10 ^ text.length) (Nat.succ_le_of_lt h)
          rw [Nat.succ_mul] at this
          omega
      exact ⟨text, ⟨rfl, htext, by omega, by omega⟩, by simp [hc]⟩

/-- Two ranges that touch are one. -/
theorem digitsBetween_add {a b c : Nat} (hab : a ≤ b + 1) (hbc : b ≤ c) :
    digitsBetween n a b + digitsBetween n (b + 1) c = digitsBetween n a c := by
  ext text
  rw [Language.mem_add]
  simp only [mem_digitsBetween]
  constructor
  · rintro (⟨hlen, hall, h⟩ | ⟨hlen, hall, h⟩)
    · exact ⟨hlen, hall, by omega⟩
    · exact ⟨hlen, hall, by omega⟩
  · rintro ⟨hlen, hall, h⟩
    by_cases hb : decimal text ≤ b
    · exact Or.inl ⟨hlen, hall, by omega⟩
    · exact Or.inr ⟨hlen, hall, by omega⟩

/-! ## Decimal texts of natural numbers -/

/-- The decimal texts of the natural numbers that have a property. -/
def numerals (P : Nat → Prop) : Language Char := {text | ∃ n, P n ∧ text = Nat.toDigits 10 n}

section

variable {P Q : Nat → Prop}

theorem mem_numerals : text ∈ numerals P ↔ ∃ n, P n ∧ text = Nat.toDigits 10 n := Iff.rfl

theorem numerals_congr (h : ∀ n, P n ↔ Q n) : numerals P = numerals Q := by
  ext text
  simp only [mem_numerals, h]

theorem numerals_false (h : ∀ n, ¬ P n) : numerals P = 0 := by
  ext text
  exact iff_of_false (fun ⟨n, hn, _⟩ => h n hn) (Language.notMem_zero text)

theorem numerals_add (P Q : Nat → Prop) : numerals P + numerals Q = numerals fun n => P n ∨ Q n := by
  ext text
  simp only [Language.mem_add, mem_numerals, or_and_right, exists_or]

/-- The first digit of a number of more than one digit is not zero. -/
theorem length_toDigits_eq {v : Nat} (hn : 0 < n) (hlo : n = 1 ∨ 10 ^ (n - 1) ≤ v) (hhi : v < 10 ^ n) :
    (Nat.toDigits 10 v).length = n := by
  refine le_antisymm ((Nat.length_toDigits_le_iff (by decide) hn).2 hhi) ?_
  by_contra hlt
  have hpos := Nat.length_toDigits_pos (b := 10) (n := v)
  rcases hlo with rfl | hlo
  · omega
  · have := (Nat.length_toDigits_le_iff (b := 10) (n := v) (k := n - 1) (by decide) (by omega)).1 (by omega)
    omega

theorem toDigits_decimal (h : AllDigits text) (hpos : 0 < text.length)
    (hlo : text.length = 1 ∨ 10 ^ (text.length - 1) ≤ decimal text) : text = Nat.toDigits 10 (decimal text) :=
  eq_of_decimal_eq h (allDigits_toDigits _) (length_toDigits_eq hpos hlo (decimal_lt h)).symm (decimal_toDigits _).symm

/-- Digits that spell at least the least number of their length are the decimal text of what they spell. -/
theorem digitsBetween_eq_numerals (hn : 0 < n) (hlo : n = 1 ∨ 10 ^ (n - 1) ≤ lo) (hhi : hi < 10 ^ n) :
    digitsBetween n lo hi = numerals fun v => lo ≤ v ∧ v ≤ hi := by
  ext text
  constructor
  · rintro ⟨rfl, hall, hle, hle'⟩
    exact ⟨decimal text, ⟨hle, hle'⟩, toDigits_decimal hall hn (hlo.imp_right fun h => h.trans hle)⟩
  · rintro ⟨v, ⟨hle, hle'⟩, rfl⟩
    exact ⟨length_toDigits_eq hn (hlo.imp_right fun h => h.trans hle) (by omega), allDigits_toDigits v,
      by rwa [decimal_toDigits], by rwa [decimal_toDigits]⟩

/-- Any digits, as long as there are enough of them. -/
theorem copies_digit (k : Nat) : Language.copies (Language.single {c | c.isDigit = true}) k none =
    {text | k ≤ text.length ∧ AllDigits text} := by
  ext text
  simp only [Language.mem_copies, single_pow, digitsBetween_all]
  constructor
  · rintro ⟨_, hn, -, rfl, hall⟩
    exact ⟨hn, hall⟩
  · rintro ⟨hlen, hall⟩
    exact ⟨text.length, hlen, nofun, rfl, hall⟩

/-- A first digit that is not zero, and then at least so many digits. -/
theorem nonzero_mul_copies (k : Nat) :
    Language.single {c | c.isDigit = true ∧ 1 ≤ digitOf c ∧ digitOf c ≤ 9} *
      Language.copies (Language.single {c | c.isDigit = true}) k none = numerals fun v => 10 ^ k ≤ v := by
  rw [copies_digit]
  ext text
  constructor
  · rintro ⟨_, ⟨c, ⟨hc, hone, -⟩, rfl⟩, text, ⟨hlen, htext⟩, rfl⟩
    have hall : AllDigits (c :: text) := List.forall_mem_cons.2 ⟨hc, htext⟩
    have hle : 10 ^ text.length ≤ decimal (c :: text) := by
      rw [decimal_cons]
      nlinarith [Nat.mul_le_mul_right (10 ^ text.length) hone]
    exact ⟨decimal (c :: text), (Nat.pow_le_pow_right (by decide) hlen).trans hle,
      toDigits_decimal hall (Nat.succ_pos _) (Or.inr hle)⟩
  · rintro ⟨v, hv, rfl⟩
    have hall := allDigits_toDigits v
    have hvalue := decimal_toDigits v
    have hlong : k < (Nat.toDigits 10 v).length := by
      have hlt := decimal_lt hall
      rw [hvalue] at hlt
      exact (Nat.pow_lt_pow_iff_right (by decide)).1 (hv.trans_lt hlt)
    have hleast : (Nat.toDigits 10 v).length = 1 ∨ 10 ^ ((Nat.toDigits 10 v).length - 1) ≤ v := by
      by_contra h
      have := (Nat.length_toDigits_le_iff (b := 10) (n := v) (k := (Nat.toDigits 10 v).length - 1) (by decide)
        (by omega)).2 (by omega)
      omega
    generalize Nat.toDigits 10 v = text at *
    match text with
    | c :: text =>
      obtain ⟨hc, htext⟩ := List.forall_mem_cons.1 hall
      refine ⟨[c], ⟨c, ⟨hc, ?_, digitOf_le hc⟩, rfl⟩, text, ⟨Nat.le_of_lt_succ hlong, htext⟩, rfl⟩
      have hlt := decimal_lt htext
      rw [decimal_cons] at hvalue
      by_contra hzero
      rw [show digitOf c = 0 by omega, Nat.zero_mul, Nat.zero_add] at hvalue
      have := Nat.pow_pos (n := k) (show 0 < 10 by decide)
      rcases hleast with h | h
      · obtain rfl : text = [] := by simpa using h
        simp [decimal] at hvalue
        omega
      · simp only [List.length_cons, Nat.add_sub_cancel] at h
        omega

end

end ConstrainedDecoding.Regex
