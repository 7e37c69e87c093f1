import ConstrainedDecoding.Proofs.Bitmask
import ConstrainedDecoding.Proofs.Texts

/-!
# Trying tokens

Trying tokens one after the other, each from what it has in common with the one before, allows the
tokens that could be read alone.
-/
namespace ConstrainedDecoding.Matcher

open Stack (levels Survives)

variable {c : Compiled} {maxDepth : Nat}

theorem take_commonLength (as bs : Bytes) :
    as.take (commonLength as bs) = bs.take (commonLength as bs) := by
  fun_induction commonLength as bs <;> simp_all

/-- A trial stands after bytes that can be read after a text, and its dead bytes cannot be. -/
structure Trial.Follows (c : Compiled) (maxDepth : Nat) (w : Bytes) (t : Trial) : Prop where
  stack : t.stack = levels c maxDepth (w ++ t.read)
  survives : Survives c maxDepth w t.read
  dead : t.dead ≠ [] → ¬ Survives c maxDepth w t.dead

/-- A trial is another one after a token was tried: the token is allowed if its bytes can be read. -/
structure Trial.Tried (c : Compiled) (maxDepth : Nat) (w : Bytes) (id : Nat) (bytes : Bytes)
    (t t' : Trial) : Prop extends t'.Follows c maxDepth w where
  size : t'.row.size = t.row.size
  allows : ∀ j, t'.row.allows j = true ↔
    t.row.allows j = true ∨ j = id ∧ Survives c maxDepth w bytes

variable {w : Bytes} {t : Trial}

/-- A token that can be read is allowed. -/
private theorem Trial.Tried.of_survives {id : Nat} {bytes : Bytes} (hid : id / 32 < t.row.size)
    (h : Survives c maxDepth w bytes) :
    t.Tried c maxDepth w id bytes ⟨levels c maxDepth (w ++ bytes), bytes, [], t.row.allow id⟩ where
  stack := rfl
  survives := h
  dead hdead := absurd rfl hdead
  size := Bitmask.size_allow t.row id
  allows j := by rw [Bitmask.allows_allow hid, and_iff_left h, or_comm]

/-- A token that cannot be read changes no row. -/
private theorem Trial.Tried.of_not_survives {id : Nat} {bytes : Bytes} {t' : Trial}
    (h : t'.Follows c maxDepth w) (hrow : t'.row = t.row) (hdead : ¬ Survives c maxDepth w bytes) :
    t.Tried c maxDepth w id bytes t' where
  toFollows := h
  size := by rw [hrow]
  allows j := by rw [hrow, or_iff_left fun h => hdead h.2]

theorem Trial.Follows.attempt (h : t.Follows c maxDepth w) {id : Nat} (hid : id / 32 < t.row.size)
    (bytes : Bytes) : t.Tried c maxDepth w id bytes (t.attempt c maxDepth id bytes) := by
  set n := commonLength bytes t.read with hn
  have common : bytes.take n = t.read.take n := take_commonLength bytes t.read
  have start : Survives c maxDepth w (bytes.take n) := by
    have := h.survives
    rw [← List.take_append_drop n t.read, Stack.survives_append] at this
    exact common ▸ this.1
  have drop : t.stack.drop (t.read.length - n) = levels c maxDepth (w ++ bytes.take n) := by
    have split : w ++ t.read = w ++ bytes.take n ++ t.read.drop n := by
      rw [common, List.append_assoc, List.take_append_drop]
    rw [h.stack, split, ← List.length_drop, Stack.drop_levels]
  obtain ⟨read, rest, heq, hread, survives, dead⟩ :=
    Stack.readWhile_levels c maxDepth (w ++ bytes.take n) (bytes.drop n)
  have survives : Survives c maxDepth w (bytes.take n ++ read) :=
    Stack.survives_append.2 ⟨start, survives⟩
  have all : bytes = bytes.take n ++ read ++ rest := by
    rw [List.append_assoc, heq, List.take_append_drop]
  unfold Trial.attempt
  simp only [← hn, drop, hread]
  cases rest with
  | nil =>
    have all : bytes.take n ++ read = bytes := by simpa using all.symm
    rw [all] at survives
    simp only [List.append_assoc, all]
    exact .of_survives hid survives
  | cons b rest =>
    have dead : ¬ Survives c maxDepth w (bytes.take n ++ read ++ [b]) := fun h => by
      rw [List.append_assoc, Stack.survives_append] at h
      exact dead b rfl h.2
    refine .of_not_survives ⟨by rw [List.append_assoc], survives, fun _ => dead⟩ rfl fun h => ?_
    rw [all, List.append_cons, Stack.survives_append] at h
    exact dead h.1

/-- Trying the token at a place allows it if its bytes can be read. -/
theorem Trial.Follows.token (h : t.Follows c maxDepth w) {place : Nat}
    (hplace : c.vocabulary.sortedIds.getD place 0 / 32 < t.row.size) :
    let id := c.vocabulary.sortedIds.getD place 0
    t.Tried c maxDepth w id (c.vocabulary.bytesOf id) (t.token c maxDepth place) := by
  intro id
  simp only [Trial.token]
  split
  · rename_i skip
    simp only [Bool.or_eq_true, Bool.and_eq_true, Bool.not_eq_true', List.isEmpty_eq_false_iff,
      List.isPrefixOf_iff_prefix] at skip
    rcases skip with allowed | ⟨hdead, ⟨more, hmore⟩⟩
    · exact ⟨h, rfl, fun j => (or_iff_left_of_imp fun hj => hj.1 ▸ allowed).symm⟩
    · refine .of_not_survives h rfl fun survives => h.dead hdead ?_
      rw [← hmore, Stack.survives_append] at survives
      exact survives.1
  · exact h.attempt hplace _

/-- Trying the tokens at places one after the other. -/
private theorem Trial.Follows.tokens (places : List Nat) : ∀ {t : Trial}, t.Follows c maxDepth w →
    (∀ place ∈ places, c.vocabulary.sortedIds.getD place 0 / 32 < t.row.size) →
    (places.foldl (Trial.token c maxDepth) t).row.size = t.row.size ∧
    ∀ id, (places.foldl (Trial.token c maxDepth) t).row.allows id = true ↔
      t.row.allows id = true ∨ ∃ place ∈ places, id = c.vocabulary.sortedIds.getD place 0 ∧
        Survives c maxDepth w (c.vocabulary.bytesOf id) := by
  induction places with
  | nil => simp
  | cons place places ih =>
    intro t h hplaces
    obtain ⟨hplace, hplaces⟩ := List.forall_mem_cons.1 hplaces
    have first := h.token hplace
    obtain ⟨size, allows⟩ := ih first.toFollows (by rwa [first.size])
    refine ⟨size.trans first.size, fun id => ?_⟩
    have same {id' : Nat} : id = id' ∧ Survives c maxDepth w (c.vocabulary.bytesOf id') ↔
        id = id' ∧ Survives c maxDepth w (c.vocabulary.bytesOf id) :=
      and_congr_right fun h => by rw [h]
    rw [List.foldl_cons, allows, first.allows, same, or_assoc, List.exists_mem_cons_iff]

/-- Trying tokens allows those whose bytes can be read, and no others. -/
theorem allows_tryTokens (c : Compiled) (maxDepth : Nat) (w : Bytes) (places : List Nat) {row : Bitmask}
    (hplaces : ∀ place ∈ places, c.vocabulary.sortedIds.getD place 0 / 32 < row.size) :
    (tryTokens c maxDepth (levels c maxDepth w) places row).1.size = row.size ∧
    ∀ id, (tryTokens c maxDepth (levels c maxDepth w) places row).1.allows id = true ↔
      row.allows id = true ∨ ∃ place ∈ places, id = c.vocabulary.sortedIds.getD place 0 ∧
        Survives c maxDepth w (c.vocabulary.bytesOf id) := by
  have start : Trial.Follows c maxDepth w ⟨levels c maxDepth w, [], [], row⟩ :=
    ⟨by simp, by simp, by simp⟩
  exact start.tokens places hplaces

end ConstrainedDecoding.Matcher
