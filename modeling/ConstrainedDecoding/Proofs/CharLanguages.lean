import ConstrainedDecoding.Proofs.Language
import ConstrainedDecoding.Proofs.Encodings

/-!
# Languages of characters

The UTF-8 forms of the texts of a language. Taking them goes along with everything that languages
are put together by, so a language of texts can be told from how its forms are described.
-/
namespace ConstrainedDecoding

open Computability

/-! ## Copies -/

namespace Language

variable {α : Type} (K : Language α)

theorem singleton_mul_singleton (u v : List α) : ({u} * {v} : Language α) = {u ++ v} := Set.image2_singleton

@[simp] theorem copies_star : copies K 0 none = K∗ := (kstar_eq_copies K).symm

@[simp] theorem copies_question : copies K 0 (some 1) = 1 + K := by
  rw [copies_succ, copies_zero, mul_one]

@[simp] theorem copies_plus : copies K 1 none = K * K∗ := by
  rw [← pow_mul_copies K 1 none nofun, pow_one, Option.map_none, copies_star]

@[simp] theorem copies_exactly (n : Nat) : copies K n (some n) = K ^ n := by
  rw [← pow_mul_copies K n (some n) (by simp), Option.map_some, Nat.sub_self, copies_zero, mul_one]

theorem copies_le_kstar (least : Nat) (most : Option Nat) : copies K least most ≤ K∗ := by
  rintro w ⟨n, -, -, hw⟩
  exact (pow_le_kstar : K ^ n ≤ K∗) hw

end Language

/-! ## Classes -/

/-- The characters of a class. -/
def CharClass.chars (set : CharClass) : Set Char := {c | set.Has c}

theorem CharClass.mem_chars {negated : Bool} {ranges : List (UInt32 × UInt32)} {c : Char} :
    c ∈ chars ⟨negated, ranges⟩ ↔
      ((∃ r ∈ ranges, r.1.toNat ≤ c.toNat ∧ c.toNat ≤ r.2.toNat) ↔ negated = false) := Iff.rfl

/-- The texts of one character of a set. -/
def Language.single (S : Set Char) : Language Char := {text | ∃ c ∈ S, text = [c]}

theorem Language.mem_single {S : Set Char} {text : List Char} :
    text ∈ single S ↔ ∃ c ∈ S, text = [c] := Iff.rfl

theorem Language.single_singleton (c : Char) : single {c} = {[c]} := by
  ext text
  simp only [mem_single, Set.mem_singleton_iff, exists_eq_left]
  rfl

theorem Language.single_insert (c : Char) (S : Set Char) : single (insert c S) = {[c]} + single S := by
  ext text
  simp only [mem_single, Set.mem_insert_iff, exists_eq_or_imp, Language.mem_add]
  rfl

/-! ## Alphabets -/

namespace Language

/-- The texts of some characters. -/
def textsOf (S : Set Char) : Language Char := {text | ∀ c ∈ text, c ∈ S}

variable {S : Set Char} {K K' : Language Char}

theorem one_le_textsOf : 1 ≤ textsOf S := by
  rintro _ rfl
  exact fun c hc => absurd hc List.not_mem_nil

theorem mul_le_textsOf (h : K ≤ textsOf S) (h' : K' ≤ textsOf S) : K * K' ≤ textsOf S := by
  rintro _ ⟨u, hu, v, hv, rfl⟩
  exact List.forall_mem_append.2 ⟨h hu, h' hv⟩

theorem kstar_le_textsOf (h : K ≤ textsOf S) : K∗ ≤ textsOf S :=
  kstar_le_of_mul_le_right one_le_textsOf (mul_le_textsOf h le_rfl)

theorem single_le_textsOf {T : Set Char} (h : T ⊆ S) : single T ≤ textsOf S := by
  rintro _ ⟨c, hc, rfl⟩
  exact List.forall_mem_singleton.2 (h hc)

end Language

/-! ## Encodings -/

namespace Utf8

/-- The UTF-8 forms of the texts of a language. -/
def encoded : Language Char →+* Language UInt8 where
  toFun K := {w | ∃ text ∈ K, w = encode text}
  map_zero' := by
    ext w
    refine iff_of_false ?_ (Language.notMem_zero w)
    rintro ⟨text, h, -⟩
    exact Language.notMem_zero text h
  map_one' := by
    ext w
    constructor
    · rintro ⟨_, rfl, rfl⟩
      rfl
    · rintro rfl
      exact ⟨[], rfl, rfl⟩
  map_add' K K' := by
    ext w
    constructor
    · rintro ⟨text, h | h, rfl⟩
      · exact Or.inl ⟨text, h, rfl⟩
      · exact Or.inr ⟨text, h, rfl⟩
    · rintro (⟨text, h, rfl⟩ | ⟨text, h, rfl⟩)
      · exact ⟨text, Or.inl h, rfl⟩
      · exact ⟨text, Or.inr h, rfl⟩
  map_mul' K K' := by
    ext w
    constructor
    · rintro ⟨_, ⟨u, hu, v, hv, rfl⟩, rfl⟩
      exact ⟨encode u, ⟨u, hu, rfl⟩, encode v, ⟨v, hv, rfl⟩, (encode_append u v).symm⟩
    · rintro ⟨_, ⟨u, hu, rfl⟩, _, ⟨v, hv, rfl⟩, rfl⟩
      exact ⟨u ++ v, ⟨u, hu, v, hv, rfl⟩, (encode_append u v).symm⟩

variable {K K' : Language Char}

theorem encode_injective : Function.Injective encode := fun u v h =>
  Option.some.inj ((decode?_encode u).symm.trans (h ▸ decode?_encode v))

/-- A text is in a language exactly if its UTF-8 form is among the forms. -/
theorem encode_mem_encoded {text : List Char} : encode text ∈ encoded K ↔ text ∈ K :=
  ⟨fun ⟨_, h, heq⟩ => encode_injective heq ▸ h, fun h => ⟨text, h, rfl⟩⟩

theorem encoded_le_encoded : encoded K ≤ encoded K' ↔ K ≤ K' := by
  constructor
  · exact fun h text htext => encode_mem_encoded.1 (h (encode_mem_encoded.2 htext))
  · rintro h _ ⟨text, htext, rfl⟩
    exact ⟨text, h htext, rfl⟩

@[simp] theorem encoded_singleton (text : List Char) : encoded {text} = {encode text} := by
  ext w
  constructor
  · rintro ⟨_, rfl, rfl⟩
    rfl
  · rintro rfl
    exact ⟨text, rfl, rfl⟩

theorem encoded_copies (K : Language Char) (least : Nat) (most : Option Nat) :
    encoded (Language.copies K least most) = Language.copies (encoded K) least most := by
  ext w
  constructor
  · rintro ⟨text, ⟨n, hl, hm, htext⟩, rfl⟩
    exact ⟨n, hl, hm, map_pow encoded K n ▸ ⟨text, htext, rfl⟩⟩
  · rintro ⟨n, hl, hm, hw⟩
    rw [← map_pow] at hw
    obtain ⟨text, htext, rfl⟩ := hw
    exact ⟨text, ⟨n, hl, hm, htext⟩, rfl⟩

theorem encoded_class (set : CharClass) : encoded (Language.single set.chars) = set.language := by
  ext w
  constructor
  · rintro ⟨_, ⟨c, hc, rfl⟩, rfl⟩
    exact ⟨c, hc, by simp⟩
  · rintro ⟨c, hc, rfl⟩
    exact ⟨[c], ⟨c, hc, rfl⟩, by simp⟩

end Utf8

end ConstrainedDecoding
