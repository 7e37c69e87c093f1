import ConstrainedDecoding.Matcher.Forced
import ConstrainedDecoding.Matcher.Mask
import Mathlib.Tactic.Set

/-!
# How stacks grow and shrink

Reading puts one level for each byte on top of a stack, and never changes the levels below. So what
was read can be taken back, and whoever only tries bytes leaves the stack as it was.
-/
namespace ConstrainedDecoding

namespace Stack

variable {c : Compiled} {maxDepth : Nat} {stack : Stack}

/-- Of what was put on top of a stack, the last levels can be taken back. -/
theorem drop_append_of_le (h : stack.size ≠ 0) {more : Array Level} {n : Nat} (hn : n ≤ more.size) :
    drop (stack ++ more) (more.size - n) = stack ++ more.take n := by
  have size : max 1 ((stack ++ more).size - (more.size - n)) = stack.size + n := by
    rw [Array.size_append]
    omega
  rw [drop, size]
  exact Array.toList_inj.1 (by simp [List.take_of_length_le])

/-- What was put on top of a stack can be taken back. -/
theorem drop_append (h : stack.size ≠ 0) (more : Array Level) :
    drop (stack ++ more) more.size = stack := by
  simpa using drop_append_of_le h (Nat.zero_le more.size)

/-- Reading puts a level for each byte on top. -/
theorem readWhile_grows (bs : Bytes) : ∀ {stack ahead : Stack} {read rest : Bytes},
    readWhile c maxDepth stack bs = (ahead, read, rest) →
      read ++ rest = bs ∧ ∃ more : Array Level, ahead = stack ++ more ∧ more.size = read.length := by
  induction bs with
  | nil =>
    intro stack ahead read rest h
    obtain ⟨rfl, rfl, rfl⟩ : stack = ahead ∧ [] = read ∧ [] = rest := by simpa [readWhile] using h
    exact ⟨rfl, #[], by simp⟩
  | cons b bs ih =>
    intro stack ahead read rest h
    rw [readWhile] at h
    split at h
    · obtain ⟨rfl, rfl, rfl⟩ : stack = ahead ∧ [] = read ∧ b :: bs = rest := by simpa using h
      exact ⟨rfl, #[], by simp⟩
    · rename_i l hl
      rcases hread : readWhile c maxDepth (stack.push l) bs with ⟨ahead', read', rest'⟩
      obtain ⟨heq, more, rfl, size⟩ := ih hread
      rw [hread] at h
      obtain ⟨rfl, rfl, rfl⟩ : stack.push l ++ more = ahead ∧ b :: read' = read ∧ rest' = rest := by
        simpa using h
      exact ⟨by rw [List.cons_append, heq], #[l] ++ more, by simp, by simp [size]; omega⟩

/-- Reading a byte string puts a level for each byte on top, or leaves the stack as it was. -/
theorem advance_grows (c : Compiled) (maxDepth : Nat) (h : stack.size ≠ 0) (bs : Bytes) :
    (∃ more : Array Level, advance c maxDepth stack bs = (true, stack ++ more) ∧
      more.size = bs.length) ∨ advance c maxDepth stack bs = (false, stack) := by
  rcases hread : readWhile c maxDepth stack bs with ⟨ahead, read, rest⟩
  obtain ⟨rfl, more, rfl, size⟩ := readWhile_grows bs hread
  rw [advance, hread]
  cases rest with
  | nil => exact Or.inl ⟨more, rfl, by simp [size]⟩
  | cons b rest =>
    right
    simp only [← size, drop_append h]

/-- Following forced bytes puts a level for each of them on top. -/
theorem follow_grows (n : Nat) : ∀ {stack ahead : Stack} {bytes : Bytes},
    follow c maxDepth n stack = (bytes, ahead) →
      ∃ more : Array Level, ahead = stack ++ more ∧ more.size = bytes.length := by
  induction n with
  | zero =>
    intro stack ahead bytes h
    obtain ⟨rfl, rfl⟩ : [] = bytes ∧ stack = ahead := by simpa [follow] using h
    exact ⟨#[], by simp⟩
  | succ n ih =>
    intro stack ahead bytes h
    have stay (h : ([], stack) = (bytes, ahead)) :
        ∃ more : Array Level, ahead = stack ++ more ∧ more.size = bytes.length := by
      obtain ⟨rfl, rfl⟩ := Prod.mk.inj h
      exact ⟨#[], by simp⟩
    rw [follow] at h
    split at h
    · exact stay h
    · split at h
      · exact stay h
      · split at h
        · exact stay h
        · rename_i l hl
          rcases hrest : follow c maxDepth n (stack.push l) with ⟨bytes', ahead'⟩
          obtain ⟨more, rfl, size⟩ := ih hrest
          rw [hrest] at h
          obtain ⟨rfl, rfl⟩ := Prod.mk.inj h
          exact ⟨#[l] ++ more, by simp, by simp [size]; omega⟩

end Stack

namespace Matcher

open Stack (Level)

variable {c : Compiled} {maxDepth : Nat} {stack : Stack}

theorem commonLength_le_left (as bs : Bytes) : commonLength as bs ≤ as.length := by
  fun_induction commonLength as bs <;> simp_all

theorem commonLength_le_right (as bs : Bytes) : commonLength as bs ≤ bs.length := by
  fun_induction commonLength as bs <;> simp_all

/-- While tokens are tried, the stack has the levels of the bytes that were read on top. -/
def Trial.Above (stack : Stack) (t : Trial) : Prop :=
  ∃ more : Array Level, t.stack = stack ++ more ∧ more.size = t.read.length

theorem Trial.above_attempt (h : stack.size ≠ 0) {t : Trial} (above : t.Above stack) (id : Nat)
    (bytes : Bytes) : (t.attempt c maxDepth id bytes).Above stack := by
  obtain ⟨more, hstack, size⟩ := above
  set n := commonLength bytes t.read with hn
  have hle : n ≤ more.size := size ▸ commonLength_le_right bytes t.read
  have drop : t.stack.drop (t.read.length - n) = stack ++ more.take n := by
    rw [hstack, ← size, Stack.drop_append_of_le h hle]
  rcases hread : Stack.readWhile c maxDepth (stack ++ more.take n) (bytes.drop n) with
    ⟨ahead, read, rest⟩
  obtain ⟨heq, more', rfl, size'⟩ := Stack.readWhile_grows _ hread
  have levels : ∃ all : Array Level, stack ++ more.take n ++ more' = stack ++ all ∧
      all.size = (bytes.take n ++ read).length := by
    refine ⟨more.take n ++ more', Array.append_assoc, ?_⟩
    have := commonLength_le_left bytes t.read
    have : (more.take n).size = n := by
      rw [Array.take_eq_extract, Array.size_extract]
      omega
    simp only [Array.size_append, List.length_append, List.length_take, size', this]
    omega
  unfold attempt
  simp only [← hn, drop, hread]
  cases rest <;> exact levels

theorem Trial.above_token (h : stack.size ≠ 0) {t : Trial} (above : t.Above stack) (place : Nat) :
    (t.token c maxDepth place).Above stack := by
  simp only [token]
  split
  · exact above
  · exact Trial.above_attempt h above _ _

/-- Trying tokens leaves the stack as it was. -/
theorem tryTokens_stack (h : stack.size ≠ 0) (places : List Nat) (row : Bitmask) :
    (tryTokens c maxDepth stack places row).2 = stack := by
  have above (t : Trial) (ht : t.Above stack) :
      (places.foldl (Trial.token c maxDepth) t).Above stack := by
    induction places generalizing t with
    | nil => exact ht
    | cons place places ih => exact ih _ (Trial.above_token h ht place)
  obtain ⟨more, hstack, size⟩ := above ⟨stack, [], [], row⟩ ⟨#[], by simp⟩
  rw [tryTokens, hstack, ← size, Stack.drop_append h]

/-- A position that some text leads to: a stack has its first level. -/
def Position.Standing : Position → Prop
  | .single _ _ => True
  | .stacked stack => stack.size ≠ 0

theorem standing_startPosition (c : Compiled) (maxDepth : Nat) :
    (startPosition c maxDepth).Standing := by
  unfold startPosition
  split <;> simp [Position.Standing, Stack.start]

variable {m : Matcher}

/-- Writing the row leaves a matcher as it was. -/
theorem overwrite_snd (h : m.position.Standing) (row : Bitmask) : (m.overwrite row).2 = m := by
  simp only [overwrite]
  split
  · rfl
  · split
    · rfl
    · rename_i stack hm
      rw [hm] at h
      simp only [stackRow, tryTokens_stack h]
      rw [← hm]

/-- Filling a row of a buffer leaves a matcher as it was. -/
theorem fill_snd (h : m.position.Standing) (buffer : Bitmask) (batch : Nat) :
    (m.fill buffer batch).2 = m := by
  simp only [fill]
  split
  · rfl
  · exact overwrite_snd h _

/-- Finding the forced text leaves a matcher as it was. -/
theorem jump_snd (h : m.position.Standing) : m.jump.2 = m := by
  simp only [jump, findForced]
  split
  · rfl
  · split
    · rfl
    · rename_i stack hm
      rw [hm] at h
      rcases hfollow : Stack.follow m.compiled m.ceiling maxForced stack with ⟨bytes, ahead⟩
      obtain ⟨more, rfl, size⟩ := Stack.follow_grows _ hfollow
      simp only [← size, Stack.drop_append h]
      rw [← hm]

/-- A matcher that cannot read a byte string is left as it was. -/
theorem advance_of_false (h : m.position.Standing) {bytes : Bytes}
    (hread : (m.advance bytes).1 = false) : m.advance bytes = (false, m) := by
  unfold advance at hread ⊢
  split
  · rename_i s before hm
    rw [hm] at hread
    cases hrun : m.rootTable.run? s bytes with
    | none => rfl
    | some s' => simp [hrun] at hread
  · rename_i stack hm
    rw [hm] at h hread
    rcases Stack.advance_grows m.compiled m.ceiling h bytes with ⟨more, hadvance, -⟩ | hadvance
    · simp [hadvance] at hread
    · simp only [hadvance]
      rw [← hm]

end Matcher

end ConstrainedDecoding
