import ConstrainedDecoding.Automaton.Utf8Paths
import ConstrainedDecoding.Proofs.Language
import Mathlib.Data.List.Lex
import Mathlib.Tactic.Linarith

/-!
# Paths of UTF-8 bytes

Among byte strings of one length whose bytes after the first are continuation bytes, the order of
the strings is the order of the numbers that they spell. So the paths between the UTF-8 forms of two
code points of one span are the forms of the code points between them, and the paths of a class are
the forms of its characters.
-/
namespace ConstrainedDecoding

namespace Utf8Paths

/-! ## What byte strings spell -/

/-- A continuation byte. -/
def Tail (b : UInt8) : Prop := 0x80 ≤ b ∧ b ≤ 0xBF

theorem Tail.toNat {b : UInt8} (h : Tail b) : 0x80 ≤ b.toNat ∧ b.toNat ≤ 0xBF := by
  simpa [Tail, UInt8.le_iff_toNat_le] using h

/-- The number that a byte string spells, with six bits for each byte after the first. -/
def spelled : Bytes → Nat
  | [] => 0
  | b :: bs => b.toNat * 64 ^ bs.length + spelled bs

private theorem spelled_lt {u v : Bytes} (hlen : u.length = v.length) (hu : ∀ x ∈ u, Tail x)
    (hv : ∀ x ∈ v, Tail x) : spelled u < spelled v + 64 ^ u.length := by
  induction u generalizing v with
  | nil =>
    obtain rfl := List.length_eq_zero_iff.1 hlen.symm
    simp [spelled]
  | cons x u ih =>
    obtain ⟨y, v, rfl⟩ := List.exists_cons_of_length_eq_add_one hlen.symm
    simp only [List.length_cons, Nat.add_right_cancel_iff] at hlen
    have hx := (hu x (by simp)).toNat
    have hy := (hv y (by simp)).toNat
    have := ih hlen (fun z hz => hu z (by simp [hz])) (fun z hz => hv z (by simp [hz]))
    have hmul : x.toNat * 64 ^ u.length ≤ (y.toNat + 63) * 64 ^ u.length :=
      Nat.mul_le_mul_right _ (by omega)
    simp only [spelled, List.length_cons, Nat.pow_succ, ← hlen]
    rw [Nat.add_mul] at hmul
    omega

/-- The order of byte strings of one length is the order of the numbers that they spell. -/
theorem le_iff_spelled_le {u v : Bytes} (hlen : u.length = v.length) (hu : ∀ x ∈ u.tail, Tail x)
    (hv : ∀ x ∈ v.tail, Tail x) : u ≤ v ↔ spelled u ≤ spelled v := by
  induction u generalizing v with
  | nil =>
    obtain rfl := List.length_eq_zero_iff.1 hlen.symm
    simp
  | cons x u ih =>
    obtain ⟨y, v, rfl⟩ := List.exists_cons_of_length_eq_add_one hlen.symm
    simp only [List.length_cons, Nat.add_right_cancel_iff] at hlen
    simp only [List.tail_cons] at hu hv
    have huv := spelled_lt hlen hu hv
    have hvu := spelled_lt hlen.symm hv hu
    rw [List.cons_le_cons_iff, ih hlen (fun z hz => hu z (List.mem_of_mem_tail hz))
      (fun z hz => hv z (List.mem_of_mem_tail hz)), UInt8.lt_iff_toNat_lt, ← UInt8.toNat_inj]
    simp only [spelled, ← hlen] at huv hvu ⊢
    rcases Nat.lt_trichotomy x.toNat y.toNat with h | h | h
    · have : (x.toNat + 1) * 64 ^ u.length ≤ y.toNat * 64 ^ u.length := Nat.mul_le_mul_right _ h
      rw [Nat.add_mul] at this
      omega
    · simp [h]
    · have : (y.toNat + 1) * 64 ^ u.length ≤ x.toNat * 64 ^ u.length := Nat.mul_le_mul_right _ h
      rw [Nat.add_mul] at this
      omega

/-! ## Spans -/

/-- The code points of a span are characters. -/
theorem isValidChar_of_spans {least most n : Nat} (h : (least, most) ∈ spans) (hl : least ≤ n)
    (hm : n ≤ most) : n.isValidChar := by
  simp only [spans, List.mem_cons, Prod.mk.injEq, List.not_mem_nil, or_false] at h
  rw [Nat.isValidChar]
  omega

/-- Every character lies in a span. -/
theorem exists_span (c : Char) : ∃ s ∈ spans, s.1 ≤ c.toNat ∧ c.toNat ≤ s.2 := by
  have h := c.valid
  rw [UInt32.isValidChar, Nat.isValidChar] at h
  have : c.toNat = c.val.toNat := rfl
  simp only [spans, List.exists_mem_cons_iff, List.not_mem_nil, false_and, exists_false, or_false]
  omega

theorem toNat_ofNat_of_valid {n : Nat} (h : n.isValidChar) : (Char.ofNat n).val.toNat = n := by
  rw [Char.ofNat, dif_pos h]
  rfl

/-- The UTF-8 forms of a span have one length, continue as they should, and spell their code points
up to a constant. -/
theorem bytesOf_spec {least most : Nat} (h : (least, most) ∈ spans) :
    ∃ length offset, ∀ n, least ≤ n → n ≤ most → (bytesOf n).length = length ∧
      (∀ x ∈ (bytesOf n).tail, Tail x) ∧ spelled (bytesOf n) = n + offset := by
  have valid := fun n => isValidChar_of_spans (n := n) h
  have tail (n : Nat) : Tail (UInt8.ofNat (n % 64 + 0x80)) := by
    simp only [Tail, UInt8.le_iff_toNat_le, UInt8.toNat_ofNat', UInt8.reduceToNat]
    omega
  have form : ∀ n, least ≤ n → n ≤ most → bytesOf n =
      if n ≤ 0x7F then [UInt8.ofNat n]
      else if n ≤ 0x7FF then
        [UInt8.ofNat (n / 64 % 0x20 + 0xC0), UInt8.ofNat (n % 64 + 0x80)]
      else if n ≤ 0xFFFF then
        [UInt8.ofNat (n / 4096 % 0x10 + 0xE0), UInt8.ofNat (n / 64 % 64 + 0x80),
          UInt8.ofNat (n % 64 + 0x80)]
      else
        [UInt8.ofNat (n / 262144 % 0x08 + 0xF0), UInt8.ofNat (n / 4096 % 64 + 0x80),
          UInt8.ofNat (n / 64 % 64 + 0x80), UInt8.ofNat (n % 64 + 0x80)] := by
    intro n hl hm
    rw [bytesOf, String.utf8EncodeChar, toNat_ofNat_of_valid (valid n hl hm)]
  simp only [spans, List.mem_cons, Prod.mk.injEq, List.not_mem_nil, or_false] at h
  by_cases h1 : most ≤ 0x7F
  · refine ⟨1, 0, fun n hl hm => ?_⟩
    rw [form n hl hm, if_pos (by omega)]
    simp [spelled, UInt8.toNat_ofNat']
    omega
  by_cases h2 : most ≤ 0x7FF
  · refine ⟨2, 0xC0 * 64 + 0x80, fun n hl hm => ?_⟩
    rw [form n hl hm, if_neg (by omega), if_pos (by omega)]
    refine ⟨rfl, by simp only [List.tail_cons, List.forall_mem_cons, tail, List.not_mem_nil,
      IsEmpty.forall_iff, implies_true, and_self], ?_⟩
    simp only [spelled, UInt8.toNat_ofNat', List.length_cons, List.length_nil]
    omega
  by_cases h3 : most ≤ 0xFFFF
  · refine ⟨3, 0xE0 * 4096 + 0x80 * 64 + 0x80, fun n hl hm => ?_⟩
    rw [form n hl hm, if_neg (by omega), if_neg (by omega), if_pos (by omega)]
    refine ⟨rfl, by simp only [List.tail_cons, List.forall_mem_cons, tail, List.not_mem_nil,
      IsEmpty.forall_iff, implies_true, and_self], ?_⟩
    simp only [spelled, UInt8.toNat_ofNat', List.length_cons, List.length_nil]
    omega
  · refine ⟨4, 0xF0 * 262144 + 0x80 * 4096 + 0x80 * 64 + 0x80, fun n hl hm => ?_⟩
    rw [form n hl hm, if_neg (by omega), if_neg (by omega), if_neg (by omega)]
    refine ⟨rfl, by simp only [List.tail_cons, List.forall_mem_cons, tail, List.not_mem_nil,
      IsEmpty.forall_iff, implies_true, and_self], ?_⟩
    simp only [spelled, UInt8.toNat_ofNat', List.length_cons, List.length_nil]
    omega

/-- The strings between the UTF-8 forms of two code points of a span are the forms of the code
points between them. -/
theorem between_forms {least most a b : Nat} (h : (least, most) ∈ spans) (ha : least ≤ a)
    (hab : a ≤ b) (hb : b ≤ most) (w : Bytes) :
    (w.length = (bytesOf a).length ∧ (∀ x ∈ w.tail, Tail x) ∧ bytesOf a ≤ w ∧ w ≤ bytesOf b) ↔
      ∃ c, a ≤ c ∧ c ≤ b ∧ w = bytesOf c := by
  obtain ⟨length, offset, spec⟩ := bytesOf_spec h
  obtain ⟨hla, hta, hsa⟩ := spec a ha (hab.trans hb)
  obtain ⟨hlb, htb, hsb⟩ := spec b (ha.trans hab) hb
  constructor
  · rintro ⟨hlen, htail, hle, hge⟩
    rw [le_iff_spelled_le hlen.symm hta htail, hsa] at hle
    rw [le_iff_spelled_le (by rw [hlen, hla, hlb]) htail htb, hsb] at hge
    obtain ⟨hlc, htc, hsc⟩ := spec (spelled w - offset) (by omega) (by omega)
    refine ⟨spelled w - offset, by omega, by omega, List.le_antisymm ?_ ?_⟩
    · rw [le_iff_spelled_le (by rw [hlen, hla, hlc]) htail htc, hsc]
      omega
    · rw [le_iff_spelled_le (by rw [hlen, hla, hlc]) htc htail, hsc]
      omega
  · rintro ⟨c, hac, hcb, rfl⟩
    obtain ⟨hlc, htc, hsc⟩ := spec c (ha.trans hac) (hcb.trans hb)
    refine ⟨by rw [hlc, hla], htc, ?_, ?_⟩
    · rw [le_iff_spelled_le (by rw [hla, hlc]) hta htc, hsa, hsc]
      omega
    · rw [le_iff_spelled_le (by rw [hlc, hlb]) htc htb, hsc, hsb]
      omega

/-! ## Paths -/

/-- One byte of a range. -/
def byteRange (lo hi : UInt8) : Language UInt8 := {w | ∃ b, lo ≤ b ∧ b ≤ hi ∧ w = [b]}

mutual

/-- The byte strings of paths. -/
def language : Utf8Paths → Language UInt8
  | .last lo hi => byteRange lo hi
  | .branch branches => branchesLanguage branches

def branchesLanguage : List ((UInt8 × UInt8) × Utf8Paths) → Language UInt8
  | [] => 0
  | ((lo, hi), paths) :: rest => byteRange lo hi * paths.language + branchesLanguage rest

end

theorem mem_byteRange_mul {lo hi : UInt8} {K : Language UInt8} {w : Bytes} :
    w ∈ byteRange lo hi * K ↔ ∃ b t, w = b :: t ∧ lo ≤ b ∧ b ≤ hi ∧ t ∈ K := by
  rw [Language.mem_mul]
  constructor
  · rintro ⟨_, ⟨b, hl, hh, rfl⟩, t, ht, rfl⟩
    exact ⟨b, t, rfl, hl, hh, ht⟩
  · rintro ⟨b, t, rfl, hl, hh, ht⟩
    exact ⟨[b], ⟨b, hl, hh, rfl⟩, t, ht, rfl⟩

theorem mem_byteRange_self_mul {b : UInt8} {K : Language UInt8} {w : Bytes} :
    w ∈ byteRange b b * K ↔ ∃ t, w = b :: t ∧ t ∈ K := by
  rw [mem_byteRange_mul]
  constructor
  · rintro ⟨x, t, rfl, hl, hh, ht⟩
    exact ⟨t, by rw [UInt8.le_antisymm hh hl], ht⟩
  · rintro ⟨t, rfl, ht⟩
    exact ⟨b, t, rfl, UInt8.le_refl _, UInt8.le_refl _, ht⟩

section

variable {lo hi : UInt8} {rest : List (UInt8 × UInt8)} {w : Bytes}

/-- A byte that is both bounds comes first. -/
theorem mem_between_self (hrest : rest ≠ []) :
    w ∈ (between ((lo, lo) :: rest)).language ↔ ∃ t, w = lo :: t ∧ t ∈ (between rest).language := by
  rw [between, if_pos rfl, language, branchesLanguage, branchesLanguage, add_zero, mem_byteRange_self_mul]
  exact hrest

private theorem strictly_between {b : UInt8} (h : lo < hi) :
    lo + 1 < hi ∧ lo + 1 ≤ b ∧ b ≤ hi - 1 ↔ lo < b ∧ b < hi := by
  have hhi := hi.toNat_lt
  have hone : (1 : UInt8).toNat = 1 := rfl
  simp only [UInt8.lt_iff_toNat_lt, UInt8.le_iff_toNat_le, UInt8.toNat_add, UInt8.toNat_sub, hone]
    at h ⊢
  omega

/-- The first byte is the lower bound, or it lies strictly between the bounds, or it is the upper bound. -/
theorem mem_between_of_lt (hlt : lo < hi) (hrest : rest ≠ []) : w ∈ (between ((lo, hi) :: rest)).language ↔
    (∃ t, w = lo :: t ∧ t ∈ (between (rest.map fun p => (p.1, 0xBF))).language) ∨
    (∃ b t, w = b :: t ∧ (lo < b ∧ b < hi) ∧ t ∈ (between (rest.map fun _ => (0x80, 0xBF))).language) ∨
    ∃ t, w = hi :: t ∧ t ∈ (between (rest.map fun p => (0x80, p.2))).language := by
  rw [between, if_neg (UInt8.ne_of_lt hlt), language]
  swap
  · exact hrest
  simp only [← strictly_between hlt]
  by_cases hroom : lo + 1 < hi
  · simp [hroom, branchesLanguage, Language.mem_add, mem_byteRange_self_mul, mem_byteRange_mul, and_assoc]
  · simp [hroom, branchesLanguage, Language.mem_add, mem_byteRange_self_mul]

end

/-- So many continuation bytes. -/
structure Tails (n : Nat) (t : Bytes) : Prop where
  length : t.length = n
  tail : ∀ x ∈ t, Tail x

/-- A string lies between two others of its length and continues as it should. -/
structure Lies (as bs w : Bytes) : Prop where
  length : w.length = as.length
  tail : ∀ x ∈ w.tail, Tail x
  le : as ≤ w
  ge : w ≤ bs

/-- Between continuation bytes there are continuation bytes alone. -/
theorem Lies.all_tail {as bs w : Bytes} (h : Lies as bs w) (ha : ∀ x ∈ as, Tail x)
    (hb : ∀ x ∈ bs, Tail x) : ∀ x ∈ w, Tail x := by
  cases w with
  | nil => simp
  | cons x w =>
    obtain ⟨a, as, rfl⟩ := List.exists_cons_of_length_eq_add_one h.length.symm
    have hle := List.cons_le_cons_iff.1 h.le
    have hge := h.ge
    cases bs with
    | nil => simp at hge
    | cons b bs =>
      have hge := List.cons_le_cons_iff.1 hge
      have ta := ha a (by simp)
      have tb := hb b (by simp)
      refine List.forall_mem_cons.2 ⟨⟨UInt8.le_trans ta.1 ?_, UInt8.le_trans ?_ tb.2⟩, h.tail⟩
      · exact UInt8.le_iff_lt_or_eq.2 (hle.imp_right And.left)
      · exact UInt8.le_iff_lt_or_eq.2 (hge.imp_right And.left)

section

variable {a b : UInt8} {as bs w : Bytes}

theorem lies_iff_tails (ha : ∀ x ∈ as, Tail x) (hb : ∀ x ∈ bs, Tail x) :
    Lies as bs w ↔ Tails as.length w ∧ as ≤ w ∧ w ≤ bs :=
  ⟨fun h => ⟨⟨h.length, h.all_tail ha hb⟩, h.le, h.ge⟩,
    fun ⟨h, hle, hge⟩ => ⟨h.length, fun x hx => h.tail x (List.mem_of_mem_tail hx), hle, hge⟩⟩

theorem lies_cons : Lies (a :: as) (b :: bs) w ↔ ∃ x t, w = x :: t ∧ Tails as.length t ∧
    (a < x ∨ a = x ∧ as ≤ t) ∧ (x < b ∨ x = b ∧ t ≤ bs) := by
  constructor
  · rintro ⟨hlen, htail, hle, hge⟩
    obtain ⟨x, t, rfl⟩ := List.exists_cons_of_length_eq_add_one hlen
    exact ⟨x, t, rfl, ⟨by simpa using hlen, htail⟩, List.cons_le_cons_iff.1 hle, List.cons_le_cons_iff.1 hge⟩
  · rintro ⟨x, t, rfl, ⟨hlen, htail⟩, hle, hge⟩
    exact ⟨by simpa using hlen, htail, List.cons_le_cons_iff.2 hle, List.cons_le_cons_iff.2 hge⟩

theorem lies_cons_self :
    Lies (a :: as) (a :: bs) w ↔ ∃ t, w = a :: t ∧ Tails as.length t ∧ as ≤ t ∧ t ≤ bs := by
  rw [lies_cons]
  constructor
  · rintro ⟨x, t, rfl, ht, hax | ⟨rfl, hle⟩, hxa | ⟨heq, hge⟩⟩
    · exact absurd (UInt8.lt_trans hax hxa) (UInt8.lt_irrefl a)
    · exact absurd (heq ▸ hax) (UInt8.lt_irrefl a)
    · exact absurd hxa (UInt8.lt_irrefl _)
    · exact ⟨t, rfl, ht, hle, hge⟩
  · rintro ⟨t, rfl, ht, hle, hge⟩
    exact ⟨a, t, rfl, ht, Or.inr ⟨rfl, hle⟩, Or.inr ⟨rfl, hge⟩⟩

theorem lies_cons_of_lt (hab : a < b) : Lies (a :: as) (b :: bs) w ↔
    (∃ t, w = a :: t ∧ Tails as.length t ∧ as ≤ t) ∨
    (∃ x t, w = x :: t ∧ (a < x ∧ x < b) ∧ Tails as.length t) ∨
    ∃ t, w = b :: t ∧ Tails as.length t ∧ t ≤ bs := by
  rw [lies_cons]
  constructor
  · rintro ⟨x, t, rfl, ht, hax | ⟨rfl, hle⟩, hxb⟩
    · rcases hxb with hxb | ⟨rfl, hge⟩
      · exact Or.inr (Or.inl ⟨x, t, rfl, ⟨hax, hxb⟩, ht⟩)
      · exact Or.inr (Or.inr ⟨t, rfl, ht, hge⟩)
    · exact Or.inl ⟨t, rfl, ht, hle⟩
  · rintro (⟨t, rfl, ht, hle⟩ | ⟨x, t, rfl, ⟨hax, hxb⟩, ht⟩ | ⟨t, rfl, ht, hge⟩)
    · exact ⟨a, t, rfl, ht, Or.inr ⟨rfl, hle⟩, Or.inl hab⟩
    · exact ⟨x, t, rfl, ht, Or.inl hax, Or.inl hxb⟩
    · exact ⟨b, t, rfl, ht, Or.inl hab, Or.inr ⟨rfl, hge⟩⟩

end

theorem Tails.least_le {α : Type} {rest : List α} {t : Bytes} (h : Tails rest.length t) :
    rest.map (fun _ => 0x80) ≤ t := by
  obtain ⟨hlen, ht⟩ := h
  induction rest generalizing t with
  | nil => simp
  | cons r rest ih =>
    obtain ⟨x, t, rfl⟩ := List.exists_cons_of_length_eq_add_one hlen
    simp only [List.map_cons, List.cons_le_cons_iff]
    rcases UInt8.lt_or_eq_of_le (ht x (by simp)).1 with h | h
    · exact Or.inl h
    · exact Or.inr ⟨h, ih (by simpa using hlen) fun y hy => ht y (by simp [hy])⟩

theorem Tails.le_most {α : Type} {rest : List α} {t : Bytes} (h : Tails rest.length t) :
    t ≤ rest.map (fun _ => 0xBF) := by
  obtain ⟨hlen, ht⟩ := h
  induction rest generalizing t with
  | nil => simp [List.length_eq_zero_iff.1 hlen]
  | cons r rest ih =>
    obtain ⟨x, t, rfl⟩ := List.exists_cons_of_length_eq_add_one hlen
    simp only [List.map_cons, List.cons_le_cons_iff]
    rcases UInt8.lt_or_eq_of_le (ht x (by simp)).2 with h | h
    · exact Or.inl h
    · exact Or.inr ⟨h, ih (by simpa using hlen) fun y hy => ht y (by simp [hy])⟩

theorem mem_between_singleton {lo hi : UInt8} {w : Bytes} :
    w ∈ (between [(lo, hi)]).language ↔ Lies [lo] [hi] w := by
  rw [between, language]
  constructor
  · rintro ⟨b, hl, hh, rfl⟩
    exact ⟨rfl, by simp, by simpa [List.cons_le_cons_iff, ← UInt8.le_iff_lt_or_eq] using hl,
      by simpa [List.cons_le_cons_iff, ← UInt8.le_iff_lt_or_eq] using hh⟩
  · rintro ⟨hlen, -, hl, hh⟩
    obtain ⟨b, rfl⟩ := List.length_eq_one_iff.1 hlen
    exact ⟨b, by simpa [List.cons_le_cons_iff, ← UInt8.le_iff_lt_or_eq] using hl,
      by simpa [List.cons_le_cons_iff, ← UInt8.le_iff_lt_or_eq] using hh, rfl⟩

/-- The paths between bounds are the strings between them, where the bounds of all bytes after the first are
continuation bytes. -/
theorem mem_between_iff_lies (n : Nat) : ∀ ps : List (UInt8 × UInt8), ps.length = n + 1 →
    (∀ p ∈ ps.tail, Tail p.1 ∧ Tail p.2) → ps.map Prod.fst ≤ ps.map Prod.snd →
    ∀ w, w ∈ (between ps).language ↔ Lies (ps.map Prod.fst) (ps.map Prod.snd) w := by
  induction n with
  | zero =>
    intro ps hlen _ _ w
    obtain ⟨⟨lo, hi⟩, rfl⟩ := List.length_eq_one_iff.1 hlen
    exact mem_between_singleton
  | succ n ih =>
    intro ps hlen htail hle w
    obtain ⟨⟨lo, hi⟩, rest, rfl⟩ := List.exists_cons_of_length_eq_add_one hlen
    simp only [List.tail_cons, List.length_cons, Nat.add_right_cancel_iff] at htail hlen
    have hrest : rest ≠ [] := fun h => by simp [h] at hlen
    -- the strings of the branches are the continuations that lie between those of the ends
    have inner (f : UInt8 × UInt8 → UInt8 × UInt8) (hf : ∀ p ∈ rest, Tail (f p).1 ∧ Tail (f p).2)
        (hle : (rest.map f).map Prod.fst ≤ (rest.map f).map Prod.snd) (t : Bytes) :
        t ∈ (between (rest.map f)).language ↔ Tails rest.length t ∧
          (rest.map f).map Prod.fst ≤ t ∧ t ≤ (rest.map f).map Prod.snd := by
      have mapped : ∀ p ∈ rest.map f, Tail p.1 ∧ Tail p.2 := List.forall_mem_map.2 hf
      rw [ih (rest.map f) (by simp [hlen]) (fun p hp => mapped p (List.mem_of_mem_tail hp)) hle,
        lies_iff_tails (List.forall_mem_map.2 fun p hp => (mapped p hp).1)
          (List.forall_mem_map.2 fun p hp => (mapped p hp).2)]
      simp
    have lows : Tails rest.length (rest.map Prod.fst) :=
      ⟨by simp, List.forall_mem_map.2 fun p hp => (htail p hp).1⟩
    have highs : Tails rest.length (rest.map Prod.snd) :=
      ⟨by simp, List.forall_mem_map.2 fun p hp => (htail p hp).2⟩
    have t80 : Tail 0x80 := ⟨by decide, by decide⟩
    have tBF : Tail 0xBF := ⟨by decide, by decide⟩
    have greatest : Tails rest.length (rest.map fun _ => (0xBF : UInt8)) := ⟨by simp, by simp [tBF]⟩
    simp only [List.map_cons, List.cons_le_cons_iff] at hle ⊢
    rcases hle with hlt | ⟨rfl, hle⟩
    · have low := inner (fun p => (p.1, 0xBF)) (fun p hp => ⟨(htail p hp).1, tBF⟩)
        (by simpa [Function.comp_def] using lows.le_most)
      have mid := inner (fun _ => (0x80, 0xBF)) (fun p hp => ⟨t80, tBF⟩)
        (by simpa [Function.comp_def] using greatest.least_le)
      have high := inner (fun p => (0x80, p.2)) (fun p hp => ⟨t80, (htail p hp).2⟩)
        (by simpa [Function.comp_def] using highs.least_le)
      simp only [List.map_map, Function.comp_def] at low mid high
      rw [mem_between_of_lt hlt hrest, lies_cons_of_lt hlt, List.length_map]
      refine or_congr (exists_congr fun t => and_congr_right fun _ => ?_) (or_congr
        (exists₂_congr fun b t => and_congr_right fun _ => and_congr_right fun _ => ?_)
        (exists_congr fun t => and_congr_right fun _ => ?_))
      · exact (low t).trans (and_congr_right fun ht => and_iff_left ht.le_most)
      · exact (mid t).trans (and_iff_left_of_imp fun ht => ⟨ht.least_le, ht.le_most⟩)
      · exact (high t).trans (and_congr_right fun ht => and_iff_right ht.least_le)
    · have same := inner id htail (by simpa using hle)
      simp only [List.map_id] at same
      rw [mem_between_self hrest, lies_cons_self, List.length_map]
      exact exists_congr fun t => and_congr_right fun _ => same t

/-- The paths between the forms of two code points of a span. -/
theorem mem_between {least most a b : Nat} (h : (least, most) ∈ spans) (ha : least ≤ a)
    (hab : a ≤ b) (hb : b ≤ most) {w : Bytes} :
    w ∈ (between ((bytesOf a).zip (bytesOf b))).language ↔ ∃ c, a ≤ c ∧ c ≤ b ∧ w = bytesOf c := by
  obtain ⟨length, offset, spec⟩ := bytesOf_spec h
  obtain ⟨hla, hta, -⟩ := spec a ha (hab.trans hb)
  obtain ⟨hlb, htb, -⟩ := spec b (ha.trans hab) hb
  have hpos : length ≠ 0 := by
    rintro rfl
    exact String.utf8EncodeChar_ne_nil (List.length_eq_zero_iff.1 hla)
  obtain ⟨n, rfl⟩ := Nat.exists_eq_succ_of_ne_zero hpos
  have hfst : ((bytesOf a).zip (bytesOf b)).map Prod.fst = bytesOf a :=
    List.map_fst_zip (by rw [hla, hlb])
  have hsnd : ((bytesOf a).zip (bytesOf b)).map Prod.snd = bytesOf b :=
    List.map_snd_zip (by rw [hla, hlb])
  have hle := ((between_forms h ha hab hb (bytesOf b)).2 ⟨b, hab, le_rfl, rfl⟩).2.2.1
  rw [mem_between_iff_lies n _ (by simp [hla, hlb]) _ (by rw [hfst, hsnd]; exact hle), hfst, hsnd,
    ← between_forms h ha hab hb w]
  · exact ⟨fun h => ⟨h.length, h.tail, h.le, h.ge⟩, fun h => ⟨h.1, h.2.1, h.2.2.1, h.2.2.2⟩⟩
  · intro p hp
    rw [List.tail_zip] at hp
    obtain ⟨x, y⟩ := p
    have := List.of_mem_zip hp
    exact ⟨hta x this.1, htb y this.2⟩

/-- The paths of a range of code points are the forms of its characters. -/
theorem mem_ofRange {lo hi : Nat} {w : Bytes} : (∃ p ∈ ofRange lo hi, w ∈ p.language) ↔
    ∃ c : Char, lo ≤ c.toNat ∧ c.toNat ≤ hi ∧ w = String.utf8EncodeChar c := by
  simp only [ofRange, List.mem_filterMap]
  constructor
  · rintro ⟨p, ⟨⟨least, most⟩, hs, hp⟩, hw⟩
    simp only [Option.ite_none_right_eq_some, Option.some.injEq] at hp
    obtain ⟨hab, rfl⟩ := hp
    obtain ⟨n, hl, hh, rfl⟩ := (mem_between hs (by omega) hab (by omega)).1 hw
    have hn : (Char.ofNat n).toNat = n :=
      toNat_ofNat_of_valid (isValidChar_of_spans hs (by omega) (by omega))
    exact ⟨Char.ofNat n, by omega, by omega, rfl⟩
  · rintro ⟨c, hl, hh, rfl⟩
    obtain ⟨⟨least, most⟩, hs, hl', hh'⟩ := exists_span c
    simp only at hl' hh'
    refine ⟨_, ⟨(least, most), hs, if_pos (by omega)⟩, ?_⟩
    exact (mem_between hs (by omega) (by omega) (by omega)).2
      ⟨c.toNat, by omega, by omega, by rw [bytesOf, Char.ofNat_toNat]⟩

end Utf8Paths

/-! ## Classes -/

namespace CharClass

/-- A number lies in one of several ranges. -/
def InRanges (ranges : List (Nat × Nat)) (n : Nat) : Prop := ∃ r ∈ ranges, r.1 ≤ n ∧ n ≤ r.2

theorem inRanges_cons {r : Nat × Nat} {ranges : List (Nat × Nat)} {n : Nat} :
    InRanges (r :: ranges) n ↔ (r.1 ≤ n ∧ n ≤ r.2) ∨ InRanges ranges n := by
  simp [InRanges]

theorem inRanges_append {ranges ranges' : List (Nat × Nat)} {n : Nat} :
    InRanges (ranges ++ ranges') n ↔ InRanges ranges n ∨ InRanges ranges' n := by
  simp [InRanges, or_and_right, exists_or]

/-- Ranges in the order of their starts. -/
abbrev Ordered (ranges : List (Nat × Nat)) : Prop := ranges.Pairwise fun r r' => r.1 ≤ r'.1

/-- Merging keeps the order and the numbers, and starts no range elsewhere. -/
theorem mergeRanges_spec (ranges : List (Nat × Nat)) (h : Ordered ranges) :
    Ordered (mergeRanges ranges) ∧ (∀ n, InRanges (mergeRanges ranges) n ↔ InRanges ranges n) ∧
      ∀ r ∈ mergeRanges ranges, ∃ r' ∈ ranges, r'.1 = r.1 := by
  fun_induction mergeRanges ranges with
  | case1 => simp
  | case2 r => simp [h]
  | case3 lo hi lo' hi' rest hle ih =>
    have hle : lo' ≤ hi + 1 := hle.trans (min_le_left _ _)
    simp only [List.pairwise_cons, List.forall_mem_cons] at h
    obtain ⟨⟨hfirst, hrest⟩, hsecond, hordered⟩ := h
    obtain ⟨hs, hn, hstart⟩ := ih (List.pairwise_cons.2 ⟨hrest, hordered⟩)
    refine ⟨hs, fun n => ?_, fun r hr => ?_⟩
    · simp only [hn, inRanges_cons, ← or_assoc]
      refine or_congr_left ?_
      omega
    · obtain ⟨r', hr', heq⟩ := hstart r hr
      rcases List.mem_cons.1 hr' with rfl | hr'
      · exact ⟨(lo, hi), by simp, heq⟩
      · exact ⟨r', by simp [hr'], heq⟩
  | case4 lo hi lo' hi' rest hle ih =>
    simp only [List.pairwise_cons, List.forall_mem_cons] at h
    obtain ⟨⟨hfirst, hrest⟩, hsecond, hordered⟩ := h
    obtain ⟨hs, hn, hstart⟩ := ih (List.pairwise_cons.2 ⟨hsecond, hordered⟩)
    refine ⟨List.pairwise_cons.2 ⟨fun r hr => ?_, hs⟩, fun n => ?_, fun r hr => ?_⟩
    · obtain ⟨r', hr', heq⟩ := hstart r hr
      rw [← heq]
      rcases List.mem_cons.1 hr' with rfl | hr'
      · exact hfirst
      · exact hrest r' hr'
    · simp only [inRanges_cons, hn]
    · rcases List.mem_cons.1 hr with rfl | hr
      · exact ⟨(lo, hi), by simp, rfl⟩
      · obtain ⟨r', hr', heq⟩ := hstart r hr
        exact ⟨r', List.mem_cons_of_mem _ hr', heq⟩

/-- What ranges leave out, among code points. -/
theorem inRanges_gaps {ranges : List (Nat × Nat)} (h : Ordered ranges) (next : Nat) {n : Nat}
    (hn : n ≤ 0x10FFFF) : InRanges (gaps next ranges) n ↔ next ≤ n ∧ ¬ InRanges ranges n := by
  induction ranges generalizing next with
  | nil =>
    by_cases hnext : next ≤ 0x10FFFF
    · simp [gaps, hnext, InRanges, hn]
    · simp [gaps, hnext, InRanges]
      omega
  | cons r ranges ih =>
    obtain ⟨lo, hi⟩ := r
    obtain ⟨hfirst, hordered⟩ := List.pairwise_cons.1 h
    have above : n < lo → ¬ InRanges ranges n := by
      rintro hlt ⟨r, hr, hl, -⟩
      have := hfirst r hr
      omega
    have before : InRanges (if next < lo then [(next, lo - 1)] else []) n ↔
        next ≤ n ∧ n < lo := by
      split
      · simp [InRanges]
        omega
      · simp [InRanges]
        omega
    have beyond : max next (after hi) ≤ n ↔ next ≤ n ∧ hi < n := by
      unfold after
      omega
    rw [gaps, inRanges_append, before, ih hordered, inRanges_cons, beyond]
    by_cases hr : InRanges ranges n
    · have : ¬ n < lo := fun hlt => above hlt hr
      simp only [hr, or_true, not_true, and_false, or_false, iff_false]
      omega
    · simp only [hr, or_false, not_false_eq_true, and_true]
      omega

theorem inRanges_codePoints (set : CharClass) (c : Char) :
    InRanges set.codePoints c.toNat ↔ set.Has c := by
  have hc : c.toNat ≤ 0x10FFFF := by
    have h := c.valid
    rw [UInt32.isValidChar, Nat.isValidChar] at h
    have : c.toNat = c.val.toNat := rfl
    omega
  have covers : InRanges (set.ranges.map fun r => (r.1.toNat, r.2.toNat)) c.toNat ↔
      set.Covers c.toNat := by
    simp [InRanges, Covers]
  simp only [codePoints]
  cases hneg : set.negated with
  | false => simp [Has, hneg, covers]
  | true =>
    rw [if_pos rfl]
    have sorted : Ordered ((set.ranges.map fun r => (r.1.toNat, r.2.toNat)).mergeSort
        fun a b => a.1 ≤ b.1) := by
      refine (List.pairwise_mergeSort ?_ ?_ _).imp fun h => by simpa using h
      · simpa using fun a b c => Nat.le_trans
      · simpa using Nat.le_total
    obtain ⟨hordered, hsame, -⟩ := mergeRanges_spec _ sorted
    have same : InRanges ((set.ranges.map fun r => (r.1.toNat, r.2.toNat)).mergeSort
        fun a b => a.1 ≤ b.1) c.toNat ↔ set.Covers c.toNat := by
      rw [← covers]
      simp only [InRanges, List.mem_mergeSort]
    rw [inRanges_gaps hordered 0 hc, hsame, same, Has, hneg]
    simp

/-- The paths of a class are the forms of its characters. -/
theorem mem_utf8Paths {set : CharClass} {w : Bytes} :
    (∃ p ∈ set.utf8Paths, w ∈ p.language) ↔ w ∈ set.language := by
  have : (∃ p ∈ set.utf8Paths, w ∈ p.language) ↔
      ∃ r ∈ set.codePoints, ∃ p ∈ Utf8Paths.ofRange r.1 r.2, w ∈ p.language := by
    simp only [utf8Paths, List.mem_flatMap]
    tauto
  simp only [this, Utf8Paths.mem_ofRange, mem_language, ← inRanges_codePoints, InRanges]
  constructor
  · rintro ⟨r, hr, c, hl, hh, rfl⟩
    exact ⟨c, ⟨r, hr, hl, hh⟩, rfl⟩
  · rintro ⟨c, ⟨r, hr, hl, hh⟩, rfl⟩
    exact ⟨r, hr, c, hl, hh, rfl⟩

end CharClass

end ConstrainedDecoding
