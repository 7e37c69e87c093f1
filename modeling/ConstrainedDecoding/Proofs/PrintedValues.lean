import ConstrainedDecoding.Proofs.DecimalRanges
import ConstrainedDecoding.Proofs.JsonReading
import ConstrainedDecoding.Proofs.ShortestDigits

/-!
# Printed values

The text of a value that is read is a text that the standard has for a value. Its whole numbers have no leading
zeros. The shortest digits of its doubles are not zero, so they have none either, and a point stands between
digits wherever it is put.
-/
namespace ConstrainedDecoding.Json

open Computability
open Regex (AllDigits allDigits_toDigits mem_digits)

/-! ## Digits -/

section

variable {text : List Char}

theorem kstar_digit : Standard.digit∗ = {text | AllDigits text} := by
  rw [← Language.copies_star, Standard.digit, Regex.copies_digit]
  ext text
  exact and_iff_right (Nat.zero_le _)

theorem allDigits_replicate (n : Nat) : AllDigits (List.replicate n '0') := fun _ hc => by
  rw [List.eq_of_mem_replicate hc]
  decide

/-- A first digit that is not zero, and then any digits. -/
theorem cons_mem_natural {c : Char} (hc : c ≠ '0') (h : AllDigits (c :: text)) : c :: text ∈ Standard.natural := by
  obtain ⟨hdigit, htext⟩ := List.forall_mem_cons.1 h
  have first : '1' ≤ c ∧ c ≤ '9' := by
    have := Regex.isDigit_iff.1 hdigit
    have hzero : c.toNat ≠ 48 := fun heq => hc (Char.toNat_inj.1 heq)
    simp only [Char.le_def, UInt32.le_iff_toNat_le]
    change 49 ≤ c.toNat ∧ c.toNat ≤ 57
    omega
  exact Or.inr ⟨[c], ⟨c, first, rfl⟩, text, kstar_digit ▸ htext, rfl⟩

theorem toDigits_mem_natural (n : Nat) : Nat.toDigits 10 n ∈ Standard.natural :=
  Regex.numerals_le_natural (fun _ => True) ⟨n, trivial, rfl⟩

end

/-! ## Numbers -/

/-- A number is put together from its sign, its whole part, its fraction and its exponent. -/
theorem append_mem_number {sign whole fraction exponent : List Char} (hsign : sign = [] ∨ sign = ['-'])
    (hwhole : whole ∈ Standard.natural) (hfraction : fraction ∈ Standard.optional ({['.']} * Standard.digits))
    (hexponent : exponent ∈ Standard.optional (Language.single {'e', 'E'} *
      Standard.optional (Language.single {'+', '-'}) * Standard.digits)) :
    sign ++ (whole ++ fraction ++ exponent) ∈ Standard.number := by
  have hsign : sign ∈ Standard.optional {['-']} := hsign
  exact ⟨_, ⟨_, ⟨sign, hsign, whole, hwhole, rfl⟩, fraction, hfraction, rfl⟩, exponent, hexponent, by simp⟩

theorem int_mem_number (z : Int) : (Number.text (.int z)).toList ∈ Standard.number := by
  have sign : (if z < 0 then ['-'] else []) = [] ∨ (if z < 0 then ['-'] else []) = ['-'] := by
    split
    exacts [Or.inr rfl, Or.inl rfl]
  have := append_mem_number sign (toDigits_mem_natural z.natAbs) (Or.inl rfl) (Or.inl rfl)
  rw [toList_int]
  simpa using this

section

variable {n : Nat}

/-- Digits that do not start with a zero are taken apart at any place. -/
theorem digits_of_ne_zero (hn : n ≠ 0) {more : List Char} (hmore : AllDigits more) :
    Nat.toDigits 10 n ++ more ∈ Standard.natural := by
  obtain ⟨c, cs, heq, hc⟩ := exists_toDigits hn
  have all := allDigits_toDigits n
  rw [heq] at all ⊢
  exact cons_mem_natural hc (List.forall_mem_append.2 ⟨all, hmore⟩)

theorem positional_mem (hn : n ≠ 0) (whole : Int) : ∃ first ∈ Standard.natural, ∃ fraction ∈
    Standard.optional ({['.']} * Standard.digits), (positional (toString n) whole).toList = first ++ fraction := by
  have all := allDigits_toDigits n
  obtain ⟨c, cs, heq, hc⟩ := exists_toDigits hn
  have point {ds : List Char} (hne : ds ≠ []) (hds : AllDigits ds) :
      '.' :: ds ∈ Standard.optional ({['.']} * Standard.digits) :=
    Or.inr ⟨['.'], rfl, ds, mem_digits.2 ⟨hne, hds⟩, rfl⟩
  have zero : ['0'] ∈ Standard.natural := Or.inl rfl
  have length : (toString n).length = (Nat.toDigits 10 n).length := by
    rw [← String.length_toList]
    simp
  unfold positional
  split_ifs with hle hge
  · refine ⟨['0'], zero, '.' :: (List.replicate (-whole).toNat '0' ++ Nat.toDigits 10 n), point ?_ ?_, ?_⟩
    · simp [heq]
    · exact List.forall_mem_append.2 ⟨allDigits_replicate _, all⟩
    · simp
  · refine ⟨_, digits_of_ne_zero hn (allDigits_replicate (whole.toNat - (toString n).length)), ['.', '0'],
      point (by simp) (List.forall_mem_singleton.2 (by decide)), ?_⟩
    simp
  · rw [length] at hge
    have htake : AllDigits ((Nat.toDigits 10 n).take whole.toNat) := fun d hd => all d (List.mem_of_mem_take hd)
    have hdrop : AllDigits ((Nat.toDigits 10 n).drop whole.toNat) := fun d hd => all d (List.mem_of_mem_drop hd)
    refine ⟨(Nat.toDigits 10 n).take whole.toNat, ?_, '.' :: (Nat.toDigits 10 n).drop whole.toNat, point ?_ hdrop, ?_⟩
    · obtain ⟨k, hk⟩ : ∃ k, whole.toNat = k + 1 := ⟨whole.toNat - 1, by omega⟩
      rw [heq, hk, List.take_succ_cons] at htake ⊢
      exact cons_mem_natural hc htake
    · refine List.length_pos_iff.1 ?_
      rw [List.length_drop]
      omega
    · simp

theorem scientific_mem (hn : n ≠ 0) (exponent : Int) : ∃ first ∈ Standard.natural, ∃ fraction ∈
    Standard.optional ({['.']} * Standard.digits), ∃ power ∈ Standard.optional (Language.single {'e', 'E'} *
      Standard.optional (Language.single {'+', '-'}) * Standard.digits),
        (scientific (toString n) exponent).toList = first ++ fraction ++ power := by
  have all := allDigits_toDigits n
  obtain ⟨c, cs, heq, hc⟩ := exists_toDigits hn
  rw [heq] at all
  have first : [c] ∈ Standard.natural := cons_mem_natural hc (List.forall_mem_singleton.2 (all c List.mem_cons_self))
  have power : ∀ sign ∈ ['+', '-'], 'e' :: sign :: Nat.toDigits 10 exponent.natAbs ∈ Standard.optional
      (Language.single {'e', 'E'} * Standard.optional (Language.single {'+', '-'}) * Standard.digits) := by
    intro sign hsign
    have hsign : [sign] ∈ Standard.optional (Language.single {'+', '-'}) := Or.inr ⟨sign, by simpa using hsign, rfl⟩
    exact Or.inr ⟨['e', sign], ⟨['e'], ⟨'e', by simp, rfl⟩, [sign], hsign, rfl⟩, _,
      mem_digits.2 ⟨Nat.toDigits_ne_nil, allDigits_toDigits _⟩, rfl⟩
  have sign : (if exponent < 0 then "-" else "+" : String).toList = [if exponent < 0 then '-' else '+'] := by
    split <;> rfl
  have hsign : (if exponent < 0 then '-' else '+') ∈ ['+', '-'] := by
    split <;> simp
  cases cs with
  | nil =>
    refine ⟨[c], first, [], Or.inl rfl, _, power _ hsign, ?_⟩
    simp [scientific, heq, sign]
  | cons d ds =>
    have rest : AllDigits (d :: ds) := fun x hx => all x (List.mem_cons_of_mem _ hx)
    refine ⟨[c], first, '.' :: d :: ds, Or.inr ⟨['.'], rfl, _, mem_digits.2 ⟨by simp, rest⟩, rfl⟩, _,
      power _ hsign, ?_⟩
    simp [scientific, heq, sign]

end

theorem double_mem_number (negative : Bool) {x : Magnitude} (hx : x.IsDouble) :
    (Number.text (.double negative x)).toList ∈ Standard.number := by
  have magnitude : ∃ first ∈ Standard.natural, ∃ fraction ∈ Standard.optional ({['.']} * Standard.digits),
      ∃ power ∈ Standard.optional (Language.single {'e', 'E'} * Standard.optional (Language.single {'+', '-'}) *
        Standard.digits), (magnitudeText x).toList = first ++ fraction ++ power := by
    unfold magnitudeText
    split
    · exact ⟨['0'], Or.inl rfl, ['.', '0'], Or.inr ⟨['.'], rfl, ['0'], mem_digits.2 ⟨by simp, allDigits_replicate 1⟩, rfl⟩,
        [], Or.inl rfl, by simp⟩
    · rename_i hzero
      have hne : (FloatFormat.binary64.shortest x).1 ≠ 0 :=
        FloatFormat.shortest_ne_zero hx (by simpa [Magnitude.isZero] using hzero)
      dsimp only
      split
      · obtain ⟨first, hfirst, fraction, hfraction, heq⟩ := positional_mem hne _
        exact ⟨first, hfirst, fraction, hfraction, [], Or.inl rfl, by rw [heq, List.append_nil]⟩
      · exact scientific_mem hne _
  obtain ⟨first, hfirst, fraction, hfraction, power, hpower, heq⟩ := magnitude
  have sign : (if negative then "-" else "" : String).toList = [] ∨ (if negative then "-" else "" : String).toList = ['-'] := by
    cases negative
    exacts [Or.inl rfl, Or.inr rfl]
  rw [Number.text, String.toList_append, heq]
  exact append_mem_number sign hfirst hfraction hpower

/-! ## Numbers that are read -/

theorem isDouble_of_mul? {x y z : Magnitude} (h : FloatFormat.binary64.mul? x y = some z) : z.IsDouble :=
  FloatFormat.isDouble_of_round? h

theorem isDouble_of_div? {x y z : Magnitude} (h : FloatFormat.binary64.div? x y = some z) : z.IsDouble :=
  FloatFormat.isDouble_of_round? h

theorem isDouble_of_scaledMagnitude? {significand : Nat} {exponent : Int} {x : Magnitude}
    (h : scaledMagnitude? significand exponent = some x) : x.IsDouble := by
  unfold scaledMagnitude? at h
  obtain ⟨y, hy, h⟩ := Option.bind_eq_some_iff.1 h
  split at h
  · obtain rfl := Option.some.inj h
    exact FloatFormat.isDouble_of_round? hy
  split at h
  · cases h
  split at h
  · obtain ⟨_, -, h⟩ := Option.bind_eq_some_iff.1 h
    exact isDouble_of_mul? h
  · dsimp only at h
    split at h
    · exact FloatFormat.isDouble_of_round? h
    · obtain ⟨_, -, h⟩ := Option.bind_eq_some_iff.1 h
      exact isDouble_of_div? h

/-- The numbers that are read are printed as the standard has them. -/
theorem text_mem_number_of_number? {parts : NumberParts} {n : Number} (h : parts.number? = some n) :
    n.text.toList ∈ Standard.number := by
  have double {significand : Nat} {exponent : Int}
      (h : (scaledMagnitude? significand exponent).map (.double parts.negative) = some n) :
      n.text.toList ∈ Standard.number := by
    obtain ⟨x, hx, rfl⟩ := Option.map_eq_some_iff.1 h
    exact double_mem_number _ (isDouble_of_scaledMagnitude? hx)
  unfold NumberParts.number? at h
  dsimp only at h
  split at h
  · split_ifs at h
    · obtain rfl := Option.some.inj h
      exact int_mem_number _
    · obtain rfl := Option.some.inj h
      exact int_mem_number _
    · exact double h
  · exact double h

/-! ## Strings -/

theorem isHex_iff {c : Char} (h : Text.isHex c = true) :
    c.isDigit = true ∨ ('a' ≤ c ∧ c ≤ 'f') ∨ ('A' ≤ c ∧ c ≤ 'F') := by
  unfold Text.isHex Text.hexValue? at h
  split_ifs at h with hdigit hlower hupper
  · left
    simpa [Char.isDigit, Char.le_def] using hdigit
  · exact Or.inr (Or.inl hlower)
  · exact Or.inr (Or.inr hupper)
  · cases h

/-- A character stands in a string as the standard has it. -/
theorem stringChar_mem_char (c : Char) : (stringChar c).toList ∈ Standard.char := by
  have short {text : String} (e : Char) (htext : text.toList = ['\\', e])
      (he : e ∈ ['"', '\\', '/', 'b', 'f', 'n', 'r', 't']) : text.toList ∈ Standard.char := by
    rw [htext]
    exact Or.inr ⟨['\\'], rfl, [e], Or.inl ⟨e, by simpa using he, rfl⟩, rfl⟩
  unfold stringChar
  split_ifs with h₁ h₂ h₃ h₄ h₅ h₆ h₇ hlt
  · exact short '"' (by simp) (by simp)
  · exact short '\\' (by simp) (by simp)
  · exact short 'b' (by simp) (by simp)
  · exact short 'f' (by simp) (by simp)
  · exact short 'n' (by simp) (by simp)
  · exact short 'r' (by simp) (by simp)
  · exact short 't' (by simp) (by simp)
  · obtain ⟨a, b, d, e, heq, -⟩ := exists_hexQuad (hlt.trans (by decide))
    have hex : ∀ x ∈ [a, b, d, e], [x] ∈ Language.single
        {c : Char | c.isDigit = true ∨ ('a' ≤ c ∧ c ≤ 'f') ∨ ('A' ≤ c ∧ c ≤ 'F')} :=
      fun x hx => ⟨x, isHex_iff (Text.isHex_of_mem_hex x (heq ▸ hx)), rfl⟩
    simp only [List.forall_mem_cons] at hex
    obtain ⟨ha, hb, hd, he, -⟩ := hex
    have four : [a, b, d, e] ∈ Language.single
        {c : Char | c.isDigit = true ∨ ('a' ≤ c ∧ c ≤ 'f') ∨ ('A' ≤ c ∧ c ≤ 'F')} ^ 4 := by
      simp only [pow_succ, pow_zero, one_mul]
      exact ⟨[a, b, d], ⟨[a, b], ⟨[a], ha, [b], hb, rfl⟩, [d], hd, rfl⟩, [e], he, rfl⟩
    rw [String.toList_append, heq]
    exact Or.inr ⟨['\\'], rfl, 'u' :: [a, b, d, e], Or.inr ⟨['u'], rfl, _, four, rfl⟩, rfl⟩
  · exact Or.inl ⟨c, ⟨Nat.not_lt.1 hlt, h₁, h₂⟩, by simp⟩

theorem stringText_mem_string (s : String) : (stringText s).toList ∈ Standard.string := by
  have chars : ∀ cs : List Char, stringChars cs ∈ Standard.char∗ := by
    intro cs
    exact Language.mem_kstar.2 ⟨cs.map fun c => (stringChar c).toList, rfl,
      List.forall_mem_map.2 fun c _ => stringChar_mem_char c⟩
  rw [toList_stringText]
  exact Standard.mem_enclosed.2 ⟨_, chars s.toList, rfl⟩

/-! ## Values -/

/-- The numbers in a value are printed as the standard has them. -/
inductive Value.Printable : Value → Prop
  | null : Printable .null
  | bool {b} : Printable (.bool b)
  | number {n : Number} : n.text.toList ∈ Standard.number → Printable (.number n)
  | string {s} : Printable (.string s)
  | array {items} : (∀ v ∈ items, Printable v) → Printable (.array items)
  | object {members} : (∀ m ∈ members, Printable m.2) → Printable (.object members)

section

open Standard (Spelled blanks nil_mem_blanks)

theorem spelled_items {vs : List Value} : ∀ {v : Value},
    (∀ w ∈ v :: vs, Spelled blanks .value w.text.toList) →
      Spelled blanks (.list .value) (itemsText true (v :: vs)).toList := by
  induction vs with
  | nil =>
    intro v h
    rw [itemsText_singleton]
    simpa using Spelled.last nil_mem_blanks (h v List.mem_cons_self) nil_mem_blanks
  | cons w vs ih =>
    intro v h
    obtain ⟨hv, hrest⟩ := List.forall_mem_cons.1 h
    rw [itemsText_cons_cons]
    exact .more nil_mem_blanks hv nil_mem_blanks (ih hrest)

theorem spelled_members {ms : List (String × Value)} : ∀ {m : String × Value},
    (∀ n ∈ m :: ms, Spelled blanks .value n.2.text.toList) →
      Spelled blanks (.list .member) (membersText true (m :: ms)).toList := by
  have member (key : String) {v : Value} (h : Spelled blanks .value v.text.toList) :
      Spelled blanks .member ((stringText key).toList ++ ':' :: v.text.toList) :=
    .member (stringText_mem_string key) nil_mem_blanks nil_mem_blanks h
  induction ms with
  | nil =>
    rintro ⟨key, v⟩ h
    rw [membersText_singleton]
    simpa using Spelled.last nil_mem_blanks (member key (h (key, v) List.mem_cons_self)) nil_mem_blanks
  | cons n ms ih =>
    rintro ⟨key, v⟩ h
    obtain ⟨hv, hrest⟩ := List.forall_mem_cons.1 h
    rw [membersText_cons_cons]
    simpa using Spelled.more nil_mem_blanks (member key hv) nil_mem_blanks (ih hrest)

/-- The text of a value is a JSON text. -/
theorem Value.Printable.spelled {v : Value} (h : v.Printable) : Spelled blanks .value v.text.toList := by
  induction h with
  | null =>
    rw [Value.text]
    exact .word (by simp)
  | @bool b =>
    cases b <;>
      · rw [Value.text]
        exact .word (by simp)
  | number h =>
    rw [Value.text]
    exact .number h
  | string =>
    rw [Value.text]
    exact .string (stringText_mem_string _)
  | @array items _ ih =>
    have text : (Value.array items).text.toList = '[' :: ((itemsText true items).toList ++ [']']) := by
      simp [Value.text]
    rw [text]
    cases items with
    | nil => exact .emptyArray nil_mem_blanks
    | cons v vs => exact .array (spelled_items ih)
  | @object members _ ih =>
    have text : (Value.object members).text.toList = '\x7b' :: ((membersText true members).toList ++ ['\x7d']) := by
      simp [Value.text]
    rw [text]
    cases members with
    | nil => exact .emptyObject nil_mem_blanks
    | cons m ms => exact .object (spelled_members ih)

theorem Value.Printable.text_mem_texts {v : Value} (h : v.Printable) : v.text.toList ∈ Standard.texts := h.spelled

end

/-! ## Values that are read -/

theorem mem_insert {key : String} {v : Value} {members : List (String × Value)} {m : String × Value}
    (h : m ∈ Value.insert key v members) : m.2 = v ∨ m ∈ members := by
  induction members with
  | nil =>
    left
    rw [List.mem_singleton.1 h]
  | cons n rest ih =>
    rw [Value.insert] at h
    split at h
    · rcases List.mem_cons.1 h with rfl | h
      · exact Or.inl rfl
      · exact Or.inr (List.mem_cons_of_mem _ h)
    · rcases List.mem_cons.1 h with rfl | h
      · exact Or.inr List.mem_cons_self
      · exact (ih h).imp_right (List.mem_cons_of_mem _)

/-- What is read with some fuel is printable, if the items and the members that were read before are. -/
structure ReadsPrintable (fuel : Nat) : Prop where
  value : ∀ {depth s v rest}, readValue depth fuel s = some (v, rest) → v.Printable
  items : ∀ {depth done s v rest}, (∀ w ∈ done, Value.Printable w) →
    readItems depth fuel done s = some (v, rest) → v.Printable
  members : ∀ {depth done s v rest}, (∀ m ∈ done, Value.Printable m.2) →
    readMembers depth fuel done s = some (v, rest) → v.Printable

namespace ReadsPrintable

variable {fuel depth : Nat} {s rest : List Char} {v : Value}

theorem value_succ (ih : ReadsPrintable fuel) (h : readValue depth (fuel + 1) s = some (v, rest)) : v.Printable := by
  rw [readValue.eq_def] at h
  dsimp only at h
  split at h
  case h_1 =>
    obtain ⟨rfl, -⟩ := Prod.mk.inj (Option.some.inj h)
    exact .null
  case h_2 | h_3 =>
    obtain ⟨rfl, -⟩ := Prod.mk.inj (Option.some.inj h)
    exact .bool
  case h_4 =>
    obtain ⟨_, -, h⟩ := Option.map_eq_some_iff.1 h
    obtain ⟨rfl, -⟩ := Prod.mk.inj h
    exact .string
  case h_5 =>
    split at h
    · cases h
    split at h
    · obtain ⟨rfl, -⟩ := Prod.mk.inj (Option.some.inj h)
      exact .array (List.forall_mem_nil _)
    · exact ih.items (List.forall_mem_nil _) h
  case h_6 =>
    split at h
    · cases h
    split at h
    · obtain ⟨rfl, -⟩ := Prod.mk.inj (Option.some.inj h)
      exact .object (List.forall_mem_nil _)
    · exact ih.members (List.forall_mem_nil _) h
  case h_7 =>
    obtain ⟨_, -, h⟩ := Option.bind_eq_some_iff.1 h
    obtain ⟨n, hn, h⟩ := Option.bind_eq_some_iff.1 h
    obtain ⟨rfl, -⟩ := Prod.mk.inj (Option.some.inj h)
    exact .number (text_mem_number_of_number? hn)

theorem items_succ (ih : ReadsPrintable fuel) {done : List Value} (hdone : ∀ w ∈ done, w.Printable)
    (h : readItems depth (fuel + 1) done s = some (v, rest)) : v.Printable := by
  rw [readItems] at h
  split at h
  · cases h
  rename_i w more hw
  have hdone : ∀ u ∈ w :: done, Value.Printable u := List.forall_mem_cons.2 ⟨ih.value hw, hdone⟩
  split at h
  · exact ih.items hdone h
  · obtain ⟨rfl, -⟩ := Prod.mk.inj (Option.some.inj h)
    exact .array fun u hu => hdone u (List.mem_reverse.1 hu)
  · cases h

theorem members_succ (ih : ReadsPrintable fuel) {done : List (String × Value)} (hdone : ∀ m ∈ done, m.2.Printable)
    (h : readMembers depth (fuel + 1) done s = some (v, rest)) : v.Printable := by
  rw [readMembers.eq_def] at h
  dsimp only at h
  split at h
  case h_2 => cases h
  split at h
  · cases h
  split at h
  case h_2 => cases h
  split at h
  · cases h
  rename_i key _ _ _ _ _ _ w more hw
  have hdone : ∀ m ∈ Value.insert key w done, m.2.Printable := by
    intro m hm
    rcases mem_insert hm with heq | hm
    · exact heq ▸ ih.value hw
    · exact hdone m hm
  split at h
  · exact ih.members hdone h
  · obtain ⟨rfl, -⟩ := Prod.mk.inj (Option.some.inj h)
    exact .object hdone
  · cases h

end ReadsPrintable

theorem readsPrintable (fuel : Nat) : ReadsPrintable fuel := by
  induction fuel with
  | zero => exact ⟨by simp [readValue], by simp [readItems], by simp [readMembers]⟩
  | succ fuel ih => exact ⟨ih.value_succ, ih.items_succ, ih.members_succ⟩

/-- The texts of the values that are read are texts of values as the standard has them. -/
theorem printable_of_parse? {text : String} {v : Value} (h : parse? text = some v) : v.Printable := by
  unfold parse? at h
  dsimp only at h
  split at h
  · rename_i hread
    split at h
    · obtain rfl := Option.some.inj h
      exact (readsPrintable _).value hread
    · cases h
  · cases h

end ConstrainedDecoding.Json
