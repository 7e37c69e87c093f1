import ConstrainedDecoding.Text.Hexadecimal
import ConstrainedDecoding.Text.Utf8
import Mathlib.Tactic.IntervalCases

/-!
# Digits and bytes that read back

The hexadecimal digits of a number spell it, filled up with zeros or not, and the UTF-8 form of a
text splits into the characters of the text and nothing else.
-/
namespace ConstrainedDecoding

namespace Text

/-! ## Hexadecimal digits -/

theorem hexValue?_digitChar {d : Nat} (h : d < 16) : hexValue? d.digitChar = some d := by
  interval_cases d <;> rfl

@[simp] theorem hexNumber_concat (cs : List Char) (c : Char) :
    hexNumber (cs ++ [c]) = hexNumber cs * 16 + (hexValue? c).getD 0 := by
  simp [hexNumber]

theorem hexNumber_toDigits (n : Nat) : hexNumber (Nat.toDigits 16 n) = n := by
  induction n using Nat.strongRecOn with
  | ind n ih =>
    rw [Nat.toDigits_eq_if (by decide)]
    split
    · rename_i h
      simp [hexNumber, hexValue?_digitChar h]
    · rw [hexNumber_concat, ih (n / 16) (by omega), hexValue?_digitChar (Nat.mod_lt n (by decide)),
        Option.getD_some]
      omega

theorem isHex_of_mem_toDigits {n : Nat} : ∀ c ∈ Nat.toDigits 16 n, isHex c = true := by
  have digit {d : Nat} (h : d < 16) : isHex d.digitChar = true := by
    rw [isHex, hexValue?_digitChar h]
    rfl
  induction n using Nat.strongRecOn with
  | ind n ih =>
    rw [Nat.toDigits_eq_if (by decide)]
    split
    · rename_i h
      simpa using digit h
    · rename_i h
      intro c hc
      rcases List.mem_append.1 hc with hc | hc
      · exact ih (n / 16) (by omega) c hc
      · rw [List.mem_singleton.1 hc]
        exact digit (Nat.mod_lt n (by decide))

theorem hexNumber_replicate_append (k : Nat) (cs : List Char) :
    hexNumber (List.replicate k '0' ++ cs) = hexNumber cs := by
  induction k with
  | zero => rfl
  | succ k ih =>
    rw [List.replicate_succ, List.cons_append]
    exact ih

theorem hexNumber_hex (width n : Nat) : hexNumber (hex width n).toList = n := by
  rw [hex, String.toList_ofList, hexNumber_replicate_append, hexNumber_toDigits]

theorem isHex_of_mem_hex {width n : Nat} : ∀ c ∈ (hex width n).toList, isHex c = true := by
  intro c hc
  rw [hex, String.toList_ofList] at hc
  rcases List.mem_append.1 hc with hc | hc
  · obtain rfl := List.eq_of_mem_replicate hc
    decide
  · exact isHex_of_mem_toDigits c hc

theorem length_hex {width n : Nat} (hwidth : 0 < width) (h : n < 16 ^ width) :
    (hex width n).toList.length = width := by
  have := (Nat.length_toDigits_le_iff (by decide) hwidth).2 h
  rw [hex, String.toList_ofList, List.length_append, List.length_replicate]
  omega

end Text

namespace Utf8

/-! ## Characters -/

/-- The continuation byte that carries the last six bits of a number. -/
def continuation (n : Nat) : UInt8 := UInt8.ofNat (n % 64 + 0x80)

theorem toNat_continuation (n : Nat) : (continuation n).toNat = n % 64 + 0x80 := by
  rw [continuation, UInt8.toNat_ofNat']
  omega

theorem isContinuation_continuation (n : Nat) : isContinuation (continuation n) = true := by
  simp only [isContinuation, Bool.and_eq_true, decide_eq_true_eq, UInt8.le_iff_toNat_le,
    UInt8.lt_iff_toNat_lt, toNat_continuation, UInt8.reduceToNat]
  omega

theorem codePoint_continuations (payload : Nat) (parts : List Nat) :
    codePoint payload (parts.map continuation) = parts.foldl (fun n k => n * 64 + k % 64) payload := by
  simp [codePoint, List.foldl_map, toNat_continuation]

theorem lead?_ofNat {n : Nat} (h : n < 0x100) : lead? (UInt8.ofNat n) =
    if n < 0x80 then some (1, n, 0)
    else if n < 0xC0 then none
    else if n < 0xE0 then some (2, n - 0xC0, 0x80)
    else if n < 0xF0 then some (3, n - 0xE0, 0x800)
    else if n < 0xF8 then some (4, n - 0xF0, 0x10000)
    else none := by
  have toNat : (UInt8.ofNat n).toNat = n := by
    rw [UInt8.toNat_ofNat']
    omega
  simp only [lead?, UInt8.lt_iff_toNat_lt, toNat, UInt8.reduceToNat]

/-- A lead byte and the continuation bytes that it announces are a character, whatever follows. -/
theorem next?_lead {b : UInt8} {c : Char} (payload least : Nat) (parts : List Nat) (rest : Bytes)
    (hlead : lead? b = some (parts.length + 1, payload, least)) (hleast : least ≤ c.toNat)
    (hcode : parts.foldl (fun n k => n * 64 + k % 64) payload = c.toNat) :
    next? (b :: (parts.map continuation ++ rest)) = some (c, rest) := by
  have all : (parts.map continuation).all isContinuation = true := by
    simp [isContinuation_continuation]
  have valid : c.toNat.isValidChar := c.valid
  have code : codePoint payload (parts.map continuation) = c.toNat :=
    (codePoint_continuations payload parts).trans hcode
  have take : (parts.map continuation ++ rest).take (parts.length + 1 - 1) = parts.map continuation :=
    List.take_left' (by simp)
  have drop : (parts.map continuation ++ rest).drop (parts.length + 1 - 1) = rest :=
    List.drop_left' (by simp)
  rw [next?, hlead]
  dsimp only
  rw [take, drop, if_pos ⟨by simp, all, by rwa [code]⟩, code, if_pos valid, Char.ofNat_toNat]

theorem next?_encode_cons (c : Char) (rest : Bytes) :
    next? (String.utf8EncodeChar c ++ rest) = some (c, rest) := by
  have lt : c.toNat < 0x110000 := by
    have valid := c.valid
    rw [UInt32.isValidChar, Nat.isValidChar] at valid
    have : c.toNat = c.val.toNat := rfl
    omega
  rw [String.utf8EncodeChar, show c.val.toNat = c.toNat from rfl]
  generalize hn : c.toNat = n at lt
  split
  · refine next?_lead n 0 [] rest ?_ (Nat.zero_le _) hn.symm
    rw [lead?_ofNat (by omega), if_pos (by omega)]
    rfl
  · split
    · refine next?_lead (n / 64) 0x80 [n] rest ?_ (by omega) ?_
      · rw [lead?_ofNat (by omega), if_neg (by omega), if_neg (by omega), if_pos (by omega),
          Nat.mod_eq_of_lt (by omega), Nat.add_sub_cancel]
        rfl
      · simp only [List.foldl]
        omega
    · split
      · refine next?_lead (n / 4096) 0x800 [n / 64, n] rest ?_ (by omega) ?_
        · rw [lead?_ofNat (by omega), if_neg (by omega), if_neg (by omega), if_neg (by omega),
            if_pos (by omega), Nat.mod_eq_of_lt (by omega), Nat.add_sub_cancel]
          rfl
        · simp only [List.foldl]
          omega
      · refine next?_lead (n / 262144) 0x10000 [n / 4096, n / 64, n] rest ?_ (by omega) ?_
        · rw [lead?_ofNat (by omega), if_neg (by omega), if_neg (by omega), if_neg (by omega),
            if_neg (by omega), if_pos (by omega), Nat.mod_eq_of_lt (by omega), Nat.add_sub_cancel]
          rfl
        · simp only [List.foldl]
          omega

/-- The UTF-8 form of a text splits into the characters of the text. -/
theorem pieces_encode (cs : List Char) : pieces (encode cs) = cs.map .char := by
  induction cs with
  | nil => simp [pieces.eq_def, next?]
  | cons c cs ih =>
    rw [encode_cons, pieces.eq_def]
    split
    · rename_i d rest heq
      obtain ⟨rfl, rfl⟩ : c = d ∧ encode cs = rest := by simpa [next?_encode_cons] using heq
      rw [ih, List.map_cons]
    · rename_i heq
      simp [next?_encode_cons] at heq

theorem decode?_encode (cs : List Char) : decode? (encode cs) = some cs := by
  induction cs with
  | nil => simp [decode?.eq_def, next?]
  | cons c cs ih =>
    rw [encode_cons, decode?.eq_def]
    split
    · rename_i d rest heq
      obtain ⟨rfl, rfl⟩ : c = d ∧ encode cs = rest := by simpa [next?_encode_cons] using heq
      rw [ih, Option.map_some]
    · rename_i heq
      simp [next?_encode_cons] at heq

end Utf8

end ConstrainedDecoding
