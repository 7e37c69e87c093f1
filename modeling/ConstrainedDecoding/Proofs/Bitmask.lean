import ConstrainedDecoding.Mask.Bitmask
import Mathlib.Data.Nat.Bitwise

/-!
# Rows of token masks

What allowing and rejecting a token means for each token of a row, and what is read back of a row
that was written into a buffer.
-/
namespace ConstrainedDecoding.Bitmask

/-! ## Words -/

private theorem toNat_bit (i : Nat) : (bit i).toNat = 2 ^ (i % 32) := by
  have lt : 2 ^ (i % 32) < 2 ^ 32 := Nat.pow_lt_pow_right (by omega) (by omega)
  have shift : (UInt32.ofNat (i % 32)).toNat % 32 = i % 32 := by
    rw [UInt32.toNat_ofNat_of_lt' (by rw [UInt32.size]; omega), Nat.mod_mod]
  rw [bit, UInt32.toNat_shiftLeft, shift, Nat.shiftLeft_eq, UInt32.toNat_one, one_mul,
    Nat.mod_eq_of_lt lt]

private theorem and_bit_ne_zero (w : UInt32) (i : Nat) :
    (w &&& bit i != 0) = w.toNat.testBit (i % 32) := by
  have toNat : (w &&& bit i).toNat = (w.toNat.testBit (i % 32)).toNat * 2 ^ (i % 32) := by
    rw [UInt32.toNat_and, toNat_bit, Nat.and_two_pow]
  rw [Bool.eq_iff_iff, bne_iff_ne, Ne, ← UInt32.toNat_inj, toNat, UInt32.toNat_zero]
  cases w.toNat.testBit (i % 32) <;> simp

private theorem testBit_or_bit (w : UInt32) (i j : Nat) :
    (w ||| bit i).toNat.testBit (j % 32) =
      (w.toNat.testBit (j % 32) || decide (i % 32 = j % 32)) := by
  rw [UInt32.toNat_or, toNat_bit, Nat.testBit_or, Nat.testBit_two_pow]

private theorem testBit_and_not_bit (w : UInt32) (i j : Nat) :
    (w &&& ~~~ bit i).toNat.testBit (j % 32) =
      (w.toNat.testBit (j % 32) && ! decide (i % 32 = j % 32)) := by
  have lt : j % 32 < 32 := Nat.mod_lt _ (by omega)
  have not : (~~~ bit i).toNat = 2 ^ 32 - (2 ^ (i % 32) + 1) := by
    rw [UInt32.toNat_not, toNat_bit, UInt32.size]
    omega
  have bound : 2 ^ (i % 32) < 2 ^ 32 := Nat.pow_lt_pow_right (by omega) (by omega)
  rw [UInt32.toNat_and, not, Nat.testBit_and, Nat.testBit_two_pow_sub_succ bound,
    Nat.testBit_two_pow]
  simp [lt]

/-! ## Rows -/

theorem allows_eq (m : Bitmask) (i : Nat) :
    m.allows i = (m.getD (i / 32) 0).toNat.testBit (i % 32) :=
  and_bit_ne_zero _ i

@[simp] theorem size_zero (words : Nat) : (zero words).size = words := by simp [zero]

@[simp] theorem size_allow (m : Bitmask) (i : Nat) : (m.allow i).size = m.size := by simp [allow]

@[simp] theorem size_reject (m : Bitmask) (i : Nat) : (m.reject i).size = m.size := by simp [reject]

@[simp] theorem size_union (m other : Bitmask) : (m.union other).size = m.size := by simp [union]

/-- A token below a number has its bit in a row of that many tokens. -/
theorem div_lt_wordsFor {i tokens : Nat} (h : i < tokens) : i / 32 < wordsFor tokens := by
  unfold wordsFor
  omega

@[simp] theorem allows_zero (words i : Nat) : (zero words).allows i = false := by
  have : (zero words).getD (i / 32) 0 = 0 := by
    rw [zero, Array.getD_eq_getD_getElem?, Array.getElem?_replicate]
    split <;> rfl
  rw [allows_eq, this, UInt32.toNat_zero, Nat.zero_testBit]

theorem clear_eq_zero (m : Bitmask) : m.clear = zero m.size := by
  refine Array.ext (by simp [clear]) fun i _ _ => ?_
  simp [clear, zero]

@[simp] theorem clear_zero (words : Nat) : (zero words).clear = zero words := by
  rw [clear_eq_zero, size_zero]

/-- The bit of an allowed token lies in the row. -/
theorem div_lt_of_allows {m : Bitmask} {i : Nat} (h : m.allows i = true) : i / 32 < m.size := by
  by_contra outside
  have : m.getD (i / 32) 0 = 0 := by simp [Array.getD_eq_getD_getElem?, Array.getElem?_eq_none (not_lt.1 outside)]
  simp [allows_eq, this] at h

private theorem getD_modify (m : Bitmask) (f : UInt32 → UInt32) {i j : Nat} (h : i < m.size) :
    (m.modify i f).getD j 0 = if i = j then f (m.getD j 0) else m.getD j 0 := by
  simp only [Array.getD_eq_getD_getElem?, Array.getElem?_modify]
  by_cases hij : i = j
  · subst hij
    simp [h]
  · simp [hij]

/-- Allowing a token of the row allows this token besides those that are allowed. -/
theorem allows_allow {m : Bitmask} {i : Nat} (h : i / 32 < m.size) (j : Nat) :
    (m.allow i).allows j = true ↔ j = i ∨ m.allows j = true := by
  rw [allows_eq, allows_eq, allow, getD_modify m _ h]
  split
  · have same : i % 32 = j % 32 ↔ j = i := by omega
    rw [testBit_or_bit, Bool.or_eq_true, decide_eq_true_eq, same, or_comm]
  · refine (or_iff_right ?_).symm
    rintro rfl
    contradiction

/-- Rejecting a token of the row leaves the others. -/
theorem allows_reject {m : Bitmask} {i : Nat} (h : i / 32 < m.size) (j : Nat) :
    (m.reject i).allows j = true ↔ j ≠ i ∧ m.allows j = true := by
  rw [allows_eq, allows_eq, reject, getD_modify m _ h]
  split
  · have same : i % 32 = j % 32 ↔ j = i := by omega
    rw [testBit_and_not_bit, Bool.and_eq_true, Bool.not_eq_true', decide_eq_false_iff_not, same,
      and_comm]
  · refine (and_iff_right ?_).symm
    rintro rfl
    contradiction

/-- A union with a row of the same length allows what either row allows. -/
theorem allows_union {m other : Bitmask} (h : other.size = m.size) (i : Nat) :
    (m.union other).allows i = true ↔ m.allows i = true ∨ other.allows i = true := by
  have getD : (m.union other).getD (i / 32) 0 = m.getD (i / 32) 0 ||| other.getD (i / 32) 0 := by
    simp only [union, Array.getD_eq_getD_getElem?, Array.getElem?_mapIdx]
    by_cases hi : i / 32 < m.size <;> simp [hi, h]
  rw [allows_eq, allows_eq, allows_eq, getD, UInt32.toNat_or, Nat.testBit_or, Bool.or_eq_true]

theorem size_foldl_allow (ids : List Nat) (m : Bitmask) : (ids.foldl allow m).size = m.size := by
  induction ids generalizing m with
  | nil => rfl
  | cons id ids ih => rw [List.foldl_cons, ih, size_allow]

/-- Allowing tokens of the row one after the other. -/
theorem allows_foldl_allow (ids : List Nat) {m : Bitmask} (h : ∀ id ∈ ids, id / 32 < m.size)
    (j : Nat) : (ids.foldl allow m).allows j = true ↔ j ∈ ids ∨ m.allows j = true := by
  induction ids generalizing m with
  | nil => simp
  | cons id ids ih =>
    rw [List.foldl_cons, ih fun id' hid' => by simpa using h id' (List.mem_cons_of_mem _ hid'),
      allows_allow (h id List.mem_cons_self), List.mem_cons, or_left_comm, or_assoc]

/-! ## Buffers -/

theorem place?_eq_some {i j : Nat} : place? i = some j ↔ i ≤ largestPlace ∧ i = j := by
  simp [place?]

/-- A row of words starts where the rows before it end, and lies in the buffer. -/
theorem rowStart?_eq_some {words tokens batch start : Nat} :
    rowStart? words tokens batch = some start ↔ start = batch * wordsFor tokens ∧
      0 < wordsFor tokens ∧ start + wordsFor tokens ≤ min words largestPlace := by
  simp only [rowStart?, bind, Option.bind_eq_some_iff, place?_eq_some]
  constructor
  · rintro ⟨_, ⟨-, rfl⟩, _, ⟨hstop, rfl⟩, h⟩
    split at h
    · cases h
    · obtain rfl := Option.some.inj h
      exact ⟨rfl, by omega, by omega⟩
  · rintro ⟨rfl, hpos, hle⟩
    exact ⟨_, ⟨by omega, rfl⟩, _, ⟨by omega, rfl⟩, if_neg (by omega)⟩

theorem le_of_rowStart? {words tokens batch start : Nat}
    (h : rowStart? words tokens batch = some start) : start + wordsFor tokens ≤ words :=
  (rowStart?_eq_some.1 h).2.2.trans (min_le_left _ _)

/-- A buffer has all rows whose words lie in it. -/
theorem rowStart?_eq_none {words tokens batch : Nat} (h : words ≤ largestPlace) :
    rowStart? words tokens batch = none ↔
      wordsFor tokens = 0 ∨ words < batch * wordsFor tokens + wordsFor tokens := by
  simp only [Option.eq_none_iff_forall_ne_some, ne_eq, rowStart?_eq_some, min_eq_left h]
  constructor
  · intro hnone
    have := hnone (batch * wordsFor tokens)
    omega
  · rintro hnone _ ⟨rfl, hpos, hle⟩
    omega

@[simp] theorem size_rowAt {buffer : Bitmask} {start words : Nat} (h : start + words ≤ buffer.size) :
    (buffer.rowAt start words).size = words := by
  simp [rowAt]
  omega

@[simp] theorem size_write (buffer : Bitmask) (start : Nat) (row : Bitmask) :
    (buffer.write start row).size = buffer.size := by simp [write]

/-- Writing a row leaves the words before and after it as they are. -/
theorem getElem?_write {buffer row : Bitmask} {start i : Nat} (h : i < start ∨ start + row.size ≤ i) :
    (buffer.write start row)[i]? = buffer[i]? := by
  have out (hi : start ≤ i) : row[i - start]? = none := Array.getElem?_eq_none (by omega)
  rw [write, Array.getElem?_mapIdx]
  by_cases hi : start ≤ i <;> simp [hi, Array.getD_eq_getD_getElem?, out]

/-- A row that was written into a buffer is read back. -/
theorem rowAt_write {buffer row : Bitmask} {start : Nat} (h : start + row.size ≤ buffer.size) :
    rowAt (buffer.write start row) start row.size = row := by
  refine Array.ext (by simp [rowAt]; omega) fun i hi hi' => ?_
  simp [rowAt, write, Array.getD_eq_getD_getElem?, hi']

end ConstrainedDecoding.Bitmask
