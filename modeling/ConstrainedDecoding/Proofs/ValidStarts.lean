import ConstrainedDecoding.Proofs.Encodings
import ConstrainedDecoding.Proofs.Utf8Paths

/-!
# The text that a byte string starts with

A byte string may stop inside a character. The characters at its start are those whose UTF-8 forms it
starts with, and there is no longer text of which this is true.
-/
namespace ConstrainedDecoding.Utf8

/-- What a lead byte announces tells which byte it is. -/
theorem lead?_eq_some {b : UInt8} {size payload least : Nat} (h : lead? b = some (size, payload, least)) :
    (size = 1 ∧ least = 0 ∧ payload < 0x80 ∧ b = UInt8.ofNat payload) ∨
    (size = 2 ∧ least = 0x80 ∧ payload < 0x20 ∧ b = UInt8.ofNat (payload + 0xC0)) ∨
    (size = 3 ∧ least = 0x800 ∧ payload < 0x10 ∧ b = UInt8.ofNat (payload + 0xE0)) ∨
    size = 4 ∧ least = 0x10000 ∧ payload < 0x08 ∧ b = UInt8.ofNat (payload + 0xF0) := by
  obtain ⟨n, hn, rfl⟩ : ∃ n < 0x100, b = UInt8.ofNat n := ⟨b.toNat, b.toNat_lt, UInt8.ofNat_toNat.symm⟩
  rw [lead?_ofNat hn] at h
  split_ifs at h <;> simp only [Option.some.injEq, Prod.mk.injEq] at h <;>
    obtain ⟨rfl, rfl, rfl⟩ := h
  · exact Or.inl ⟨rfl, rfl, by omega, rfl⟩
  · exact Or.inr (Or.inl ⟨rfl, rfl, by omega, by rw [Nat.sub_add_cancel (by omega)]⟩)
  · exact Or.inr (Or.inr (Or.inl ⟨rfl, rfl, by omega, by rw [Nat.sub_add_cancel (by omega)]⟩))
  · exact Or.inr (Or.inr (Or.inr ⟨rfl, rfl, by omega, by rw [Nat.sub_add_cancel (by omega)]⟩))

/-- Continuation bytes carry parts of six bits. -/
theorem exists_parts (tail : Bytes) (h : ∀ b ∈ tail, isContinuation b = true) :
    ∃ parts : List Nat, tail = parts.map continuation ∧ ∀ k ∈ parts, k < 0x40 := by
  induction tail with
  | nil => exact ⟨[], rfl, by simp⟩
  | cons b tail ih =>
    obtain ⟨parts, rfl, small⟩ := ih fun b' hb' => h b' (List.mem_cons_of_mem _ hb')
    have carries := h b List.mem_cons_self
    simp only [isContinuation, Bool.and_eq_true, decide_eq_true_eq, UInt8.le_iff_toNat_le,
      UInt8.lt_iff_toNat_lt, UInt8.reduceToNat] at carries
    have part : b = continuation (b.toNat - 0x80) := by
      apply UInt8.toNat_inj.1
      rw [toNat_continuation]
      omega
    refine ⟨(b.toNat - 0x80) :: parts, by rw [List.map_cons, ← part], ?_⟩
    exact List.forall_mem_cons.2 ⟨by omega, small⟩

/-- A lead byte and the continuation bytes that it announces are the UTF-8 form of what they spell. -/
theorem encodeChar_of_lead {b : UInt8} {c : Char} {size payload least : Nat} {parts : List Nat}
    (hlead : lead? b = some (size, payload, least)) (hsize : parts.length = size - 1)
    (small : ∀ k ∈ parts, k < 0x40) (hleast : least ≤ c.toNat)
    (hcode : parts.foldl (fun n k => n * 64 + k % 64) payload = c.toNat) :
    String.utf8EncodeChar c = b :: parts.map continuation := by
  rw [String.utf8EncodeChar, show c.val.toNat = c.toNat from rfl, ← hcode]
  rw [← hcode] at hleast
  obtain ⟨rfl, rfl, lt, rfl⟩ | ⟨rfl, rfl, lt, rfl⟩ | ⟨rfl, rfl, lt, rfl⟩ | ⟨rfl, rfl, lt, rfl⟩ :=
    lead?_eq_some hlead
  · obtain rfl := List.length_eq_zero_iff.1 hsize
    rw [List.foldl, if_pos (by omega)]
    rfl
  · obtain ⟨i, rfl⟩ := List.length_eq_one_iff.1 hsize
    have hi : i < 0x40 := small i List.mem_cons_self
    simp only [List.foldl, Nat.mod_eq_of_lt hi] at hleast ⊢
    rw [if_neg (by omega), if_pos (by omega)]
    simp only [List.map, continuation, List.cons.injEq, and_true]
    constructor <;> apply congrArg UInt8.ofNat <;> omega
  · obtain ⟨i, j, rfl⟩ := List.length_eq_two.1 hsize
    simp only [List.forall_mem_cons, List.foldl] at small hleast ⊢
    obtain ⟨hi, hj, -⟩ := small
    simp only [Nat.mod_eq_of_lt hi, Nat.mod_eq_of_lt hj] at hleast ⊢
    rw [if_neg (by omega), if_neg (by omega), if_pos (by omega)]
    simp only [List.map, continuation, List.cons.injEq, and_true]
    refine ⟨?_, ?_, ?_⟩ <;> apply congrArg UInt8.ofNat <;> omega
  · obtain ⟨i, j, k, rfl⟩ := List.length_eq_three.1 hsize
    simp only [List.forall_mem_cons, List.foldl] at small hleast ⊢
    obtain ⟨hi, hj, hk, -⟩ := small
    simp only [Nat.mod_eq_of_lt hi, Nat.mod_eq_of_lt hj, Nat.mod_eq_of_lt hk] at hleast ⊢
    rw [if_neg (by omega), if_neg (by omega), if_neg (by omega)]
    simp only [List.map, continuation, List.cons.injEq, and_true]
    refine ⟨?_, ?_, ?_, ?_⟩ <;> apply congrArg UInt8.ofNat <;> omega

/-- A byte string starts with a well-formed character if it starts with the UTF-8 form of one. -/
theorem next?_eq_some {bs rest : Bytes} {c : Char} :
    next? bs = some (c, rest) ↔ bs = String.utf8EncodeChar c ++ rest := by
  constructor
  · intro h
    cases bs with
    | nil => cases h
    | cons b bs =>
      rw [next?] at h
      split at h
      · cases h
      · rename_i size payload least hlead
        dsimp only at h
        split_ifs at h with hwell hvalid
        obtain ⟨hsize, continues, hleast⟩ := hwell
        obtain ⟨rfl, rfl⟩ := Prod.mk.inj (Option.some.inj h)
        obtain ⟨parts, htail, small⟩ := exists_parts (bs.take (size - 1)) (List.all_eq_true.1 continues)
        have toNat : (Char.ofNat (codePoint payload (bs.take (size - 1)))).toNat =
            codePoint payload (bs.take (size - 1)) :=
          Utf8Paths.toNat_ofNat_of_valid hvalid
        have length : parts.length = size - 1 := by rw [← hsize, htail, List.length_map]
        have encoded := encodeChar_of_lead hlead length small (by rwa [toNat])
          (by rw [toNat, htail, codePoint_continuations])
        rw [encoded, ← htail, List.cons_append, List.take_append_drop]
  · rintro rfl
    exact next?_encode_cons c rest

theorem validStart_of_some {bs rest : Bytes} {c : Char} (h : next? bs = some (c, rest)) :
    validStart bs = c :: validStart rest := by
  rw [validStart.eq_def]
  split <;> simp_all

theorem validStart_of_none {bs : Bytes} (h : next? bs = none) : validStart bs = [] := by
  rw [validStart.eq_def]
  split <;> simp_all

/-- The characters at the start of a byte string are the longest text whose UTF-8 form it starts with. -/
theorem encode_prefix_iff {cs : List Char} : ∀ {bs : Bytes}, encode cs <+: bs ↔ cs <+: validStart bs := by
  induction cs with
  | nil => simp
  | cons c cs ih =>
    intro bs
    have starts : encode (c :: cs) <+: bs ↔ ∃ rest, next? bs = some (c, rest) ∧ encode cs <+: rest := by
      simp only [next?_eq_some, encode_cons]
      constructor
      · rintro ⟨rest, rfl⟩
        exact ⟨encode cs ++ rest, by rw [List.append_assoc], List.prefix_append _ _⟩
      · rintro ⟨rest, rfl, hrest⟩
        exact (List.prefix_append_right_inj _).2 hrest
    rw [starts]
    cases hnext : next? bs with
    | none => simp [validStart_of_none hnext]
    | some x =>
      obtain ⟨d, rest⟩ := x
      rw [validStart_of_some hnext, List.cons_prefix_cons, ← ih]
      simp [eq_comm]

end ConstrainedDecoding.Utf8
