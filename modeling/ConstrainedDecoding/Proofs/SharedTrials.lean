import ConstrainedDecoding.Proofs.Containment

/-!
# Tokens that are tried one after the other

Tokens that are tried one after the other share what they have in common at their start, and a token
that starts with bytes that could not be read is not tried at all. The outcome is the same as if each
token were tried alone, from the same stack, whatever the order of the tokens and the row before.
-/
namespace ConstrainedDecoding

namespace Stack

variable {c : Compiled} {maxDepth : Nat}

/-- No more levels are taken back than there are above the first one. -/
theorem drop_min (stack : Stack) (n : Nat) : stack.drop (min n (stack.size - 1)) = stack.drop n := by
  have size : max 1 (stack.size - min n (stack.size - 1)) = max 1 (stack.size - n) := by omega
  rw [drop, drop, size]

/-- A stack that levels were put on and taken off is the stack for a text. -/
theorem Visits.exists_levels {stack : Stack} (h : Visits c maxDepth (start c maxDepth) stack) :
    ∃ w, stack = levels c maxDepth w := by
  induction h with
  | here => exact ⟨[], rfl⟩
  | @push s b l _ hl ih =>
    obtain ⟨w, rfl⟩ := ih
    obtain ⟨-, rfl⟩ := next?_eq_some.1 hl
    refine ⟨w ++ [b], ?_⟩
    rw [levels_append, workOf_append]
  | @drop s _ n ih =>
    obtain ⟨w, rfl⟩ := ih
    have few : min n w.length ≤ w.length := Nat.min_le_right _ _
    refine ⟨w.take (w.length - min n w.length), ?_⟩
    have taken := @drop_levels c maxDepth (w.take (w.length - min n w.length))
      (w.drop (w.length - min n w.length))
    rw [List.take_append_drop, List.length_drop, Nat.sub_sub_self few] at taken
    have size : (levels c maxDepth w).size - 1 = w.length := by simp
    rw [← drop_min, size, taken]

end Stack

namespace Matcher

open Stack (Visits start levels)

/-- Whatever stack levels were put on and taken off, and whatever row there was before: of the tokens
that are tried, those whose bytes the stack can read are allowed after that, and no other bit of the
row is changed. The stack is as it was. -/
theorem tried_together_iff_alone {v : Vocabulary} {c : Compiled} {tokens : List String}
    {kind : Vocabulary.Kind} {size : Option Nat} {stop : Setting (List Nat)} {addsSpace : Bool}
    (hv : Vocabulary.ofTokens tokens kind size stop addsSpace = .ok v)
    (hc : c.IsCompiled v ∨ c.IsRead v) (maxDepth : Nat) {stack : Stack}
    (hstack : Visits c maxDepth (start c maxDepth) stack) {places : List Nat}
    (hplaces : ∀ place ∈ places, place < v.sortedIds.size) {row : Bitmask}
    (hrow : row.size = Bitmask.wordsFor v.size) :
    let tried := tryTokens c maxDepth stack places row
    tried.2 = stack ∧ tried.1.size = row.size ∧ ∀ id, tried.1.allows id = true ↔
      row.allows id = true ∨ (∃ place ∈ places, v.sortedIds[place]? = some id) ∧
        (stack.advance c maxDepth (v.bytesOf id)).1 = true := by
  intro tried
  have regular := Vocabulary.regular_of_ofTokens hv
  obtain ⟨sound, rfl⟩ := Compiled.sound_of_made regular hc
  have standing := (hstack.sound sound.regular (Stack.sound_start sound.regular maxDepth)).standing
  obtain ⟨w, rfl⟩ := hstack.exists_levels
  have entry {place : Nat} (h : place < c.vocabulary.sortedIds.size) :
      c.vocabulary.sortedIds[place]? = some (c.vocabulary.sortedIds.getD place 0) := by
    simp [Array.getD_eq_getD_getElem?, h]
  have inside : ∀ place ∈ places, c.vocabulary.sortedIds.getD place 0 / 32 < row.size := by
    intro place hplace
    rw [hrow]
    apply Bitmask.div_lt_wordsFor
    exact regular.lt_size (Array.mem_of_getElem? (entry (hplaces place hplace)))
  obtain ⟨same, allows⟩ := allows_tryTokens c maxDepth w places inside
  refine ⟨tryTokens_stack standing places row, same, ?_⟩
  intro id
  have candidate : (∃ place ∈ places, id = c.vocabulary.sortedIds.getD place 0) ↔
      ∃ place ∈ places, c.vocabulary.sortedIds[place]? = some id := by
    apply exists_congr
    intro place
    apply and_congr_right
    intro hplace
    rw [entry (hplaces place hplace), Option.some_inj, eq_comm]
  rw [allows, Stack.advance_levels_iff, ← candidate]
  simp only [exists_and_right, ← and_assoc]

/-- What can be told of a token after a byte. -/
structure Glimpse where
  /-- The number of tokens. -/
  size : Nat
  /-- Whether the token stands for text. -/
  isText : Bool
  /-- Whether the stack can read the token. -/
  isRead : Bool
  deriving DecidableEq

/-- What can be told of a token after a byte that can be read, if a grammar compiles against the given
tokens. -/
def glimpse (g : Grammar) (tokens : List String) (b : UInt8) (id : Nat) : Option Glimpse := do
  let v ← (Vocabulary.ofTokens tokens .raw none .unset false).toOption
  let c ← (Compiled.compile g v).toOption
  let l ← (start c 10).next? c 10 b
  let stack : Stack := (start c 10).push l
  return ⟨v.size, ! v.isSpecial id && ! v.stopIds.contains id, (stack.advance c 10 (v.bytesOf id)).1⟩

theorem glimpse_eq_some {g : Grammar} {tokens : List String} {b : UInt8} {id : Nat} {x : Glimpse}
    (h : glimpse g tokens b id = some x) : ∃ v c stack,
      Vocabulary.ofTokens tokens .raw none .unset false = .ok v ∧ Compiled.compile g v = .ok c ∧
      Visits c 10 (start c 10) stack ∧ v.size = x.size ∧
      (id ∈ v.sortedIds ↔ x.isText = true) ∧ (stack.advance c 10 (v.bytesOf id)).1 = x.isRead := by
  obtain ⟨v, hv, h⟩ := Option.bind_eq_some_iff.1 h
  obtain ⟨c, hc, h⟩ := Option.bind_eq_some_iff.1 h
  obtain ⟨l, hl, h⟩ := Option.bind_eq_some_iff.1 h
  have hv := Except.toOption_eq_some.1 hv
  obtain rfl := Option.some.inj h
  refine ⟨v, c, _, hv, Except.toOption_eq_some.1 hc, Visits.here.push hl, rfl, ?_, rfl⟩
  rw [(Vocabulary.regular_of_ofTokens hv).mem_sortedIds]
  simp

/-- After an open parenthesis `x)` is allowed if all tokens are tried. -/
theorem nestedX_tried_together : ∃ v c stack,
    Vocabulary.ofTokens ["(", "x", ")", "x)", "xx"] .raw none .unset false = .ok v ∧
    Compiled.compile nestedX v = .ok c ∧ Visits c 10 (start c 10) stack ∧
    (tryTokens c 10 stack (List.range v.sortedIds.size) #[0]).1.allows 3 = true := by
  have glimpse : glimpse nestedX ["(", "x", ")", "x)", "xx"] 40 3 = some ⟨5, true, true⟩ := by
    decide +kernel
  obtain ⟨v, c, stack, hv, hc, visits, size, text, read⟩ := glimpse_eq_some glimpse
  have made : c.IsCompiled v := ⟨nestedX, valid_nestedX, hc⟩
  have places : ∀ place ∈ List.range v.sortedIds.size, place < v.sortedIds.size := by simp
  have words : Array.size (#[0] : Bitmask) = Bitmask.wordsFor v.size := by
    rw [size]
    rfl
  obtain ⟨-, -, allows⟩ := tried_together_iff_alone hv (Or.inl made) 10 visits places words
  refine ⟨v, c, stack, hv, hc, visits, ?_⟩
  apply (allows 3).2
  obtain ⟨place, hplace⟩ := Array.mem_iff_getElem?.1 (text.2 rfl)
  have inside : place < v.sortedIds.size := (Array.getElem?_eq_some_iff.1 hplace).1
  exact Or.inr ⟨⟨place, List.mem_range.2 inside, hplace⟩, read⟩

end Matcher

end ConstrainedDecoding
