import ConstrainedDecoding.Matcher.Stack
import Mathlib.Data.List.Induction

/-!
# Stacks laid out flat

The levels of a stack can be kept one after another: the states of all levels in one array, what waits at
them in another, and for each level where its part of either array starts. Putting a level on top and
taking levels off keeps the starts in order and inside their arrays, and what is looked up at a level is
what the level of the stack holds, whatever was put on and taken off before.
-/
namespace ConstrainedDecoding

/-! ## Arrays one after another -/

/-- Parts, one after another in a single array. -/
structure Packed (α : Type) where
  items : Array α
  /-- Where each part starts. -/
  starts : Array Nat

namespace Packed

variable {α : Type}

def empty : Packed α := ⟨#[], #[]⟩

/-- Puts a part behind the others. -/
def push (p : Packed α) (part : Array α) : Packed α :=
  ⟨p.items ++ part, p.starts.push p.items.size⟩

/-- Takes the last part away. -/
def pop (p : Packed α) : Packed α :=
  match p.starts.back? with
  | some start => ⟨p.items.take start, p.starts.pop⟩
  | none => p

/-- A part: it goes on to where the next one starts. -/
def part (p : Packed α) (i : Nat) : Array α :=
  p.items.extract (p.starts.getD i 0) (p.starts.getD (i + 1) p.items.size)

/-- The last part. -/
def last (p : Packed α) : Array α :=
  match p.starts.back? with
  | some start => p.items.extract start p.items.size
  | none => #[]

/-- The starts ascend, and none lies beyond the items. -/
structure Sound (p : Packed α) : Prop where
  ascending : p.starts.toList.Pairwise (· ≤ ·)
  inside : ∀ start ∈ p.starts, start ≤ p.items.size

theorem sound_empty : (empty : Packed α).Sound := ⟨by simp [empty], by simp [empty]⟩

theorem Sound.push {p : Packed α} (h : p.Sound) (part : Array α) : (p.push part).Sound where
  ascending := by
    simp only [Packed.push, Array.toList_push, List.pairwise_append, List.mem_singleton]
    exact ⟨h.ascending, by simp, fun a ha b hb => hb ▸ h.inside a (Array.mem_toList_iff.1 ha)⟩
  inside start hstart := by
    simp only [Packed.push, Array.size_append]
    rcases Array.mem_push.1 hstart with hstart | rfl
    · exact Nat.le_add_right_of_le (h.inside start hstart)
    · exact Nat.le_add_right _ _

@[simp] theorem size_starts_push (p : Packed α) (part : Array α) :
    (p.push part).starts.size = p.starts.size + 1 := by simp [push]

/-- Taking away the part that was put last leads back. -/
@[simp] theorem pop_push (p : Packed α) (part : Array α) : (p.push part).pop = p := by
  simp [push, pop]

@[simp] theorem last_push (p : Packed α) (part : Array α) : (p.push part).last = part := by
  simp [push, last]

/-- Where a part ends. -/
theorem getD_starts_le {p : Packed α} (h : p.Sound) (i : Nat) : p.starts.getD i p.items.size ≤ p.items.size := by
  rw [Array.getD_eq_getD_getElem?]
  cases hi : p.starts[i]? with
  | none => exact Nat.le_refl _
  | some start => exact h.inside start (Array.mem_of_getElem? hi)

theorem part_push_of_lt {p : Packed α} (h : p.Sound) (a : Array α) {i : Nat} (hi : i < p.starts.size) :
    (p.push a).part i = p.part i := by
  have start : (p.push a).starts.getD i 0 = p.starts.getD i 0 := by
    simp [push, Array.getD_eq_getD_getElem?, Array.getElem?_push, Nat.ne_of_lt hi]
  have stop : (p.push a).starts.getD (i + 1) (p.push a).items.size = p.starts.getD (i + 1) p.items.size := by
    rw [Array.getD_eq_getD_getElem?, Array.getD_eq_getD_getElem?, push, Array.getElem?_push]
    split
    · rename_i hlast
      simp [hlast]
    · rw [Array.getElem?_eq_getElem (show i + 1 < p.starts.size by omega)]
      rfl
  have inside := getD_starts_le h (i + 1)
  rw [part, part, start, stop, push, Array.extract_append, Nat.sub_eq_zero_of_le inside]
  simp

@[simp] theorem part_push_size (p : Packed α) (a : Array α) : (p.push a).part p.starts.size = a := by
  simp [push, part]

/-- Parts, packed one after another. -/
def ofParts (parts : Array (Array α)) : Packed α := parts.foldl push empty

@[simp] theorem ofParts_push (parts : Array (Array α)) (a : Array α) :
    ofParts (parts.push a) = (ofParts parts).push a := by
  simp [ofParts]

/-- What holds of packed parts, each of which is put behind the others. -/
theorem ofParts_induction {P : Array (Array α) → Prop} (nil : P #[])
    (push : ∀ parts a, P parts → P (parts.push a)) (parts : Array (Array α)) : P parts := by
  obtain ⟨l⟩ := parts
  induction l using List.reverseRecOn with
  | nil => exact nil
  | append_singleton l a ih => simpa using push _ a ih

theorem sound_ofParts (parts : Array (Array α)) : (ofParts parts).Sound := by
  induction parts using ofParts_induction with
  | nil => exact sound_empty
  | push parts a ih => exact ofParts_push parts a ▸ ih.push a

@[simp] theorem size_starts_ofParts (parts : Array (Array α)) : (ofParts parts).starts.size = parts.size := by
  induction parts using ofParts_induction with
  | nil => rfl
  | push parts a ih => simp [ih]

/-- Each part is found again. -/
theorem part_ofParts {parts : Array (Array α)} {i : Nat} {a : Array α} (h : parts[i]? = some a) :
    (ofParts parts).part i = a := by
  induction parts using ofParts_induction with
  | nil => simp at h
  | push parts b ih =>
    rw [Array.getElem?_push] at h
    rw [ofParts_push]
    split at h
    · obtain rfl := Option.some.inj h
      rename_i hi
      rw [hi, ← size_starts_ofParts parts, part_push_size]
    · have hi : i < parts.size := (Array.getElem?_eq_some_iff.1 h).1
      rw [part_push_of_lt (sound_ofParts parts) b (by simpa using hi), ih h]

end Packed

/-! ## Stacks -/

open Stack (Level State)

/-- A stack laid out flat. -/
structure FlatStack where
  /-- The states of each level from which a byte can be read. -/
  states : Packed State
  /-- What waits at each level. -/
  returns : Packed (RuleId × State)
  /-- Whether the text may end at each level. -/
  ends : Array Bool

namespace FlatStack

/-- Puts a level on top. -/
def push (f : FlatStack) (l : Level) : FlatStack :=
  ⟨f.states.push l.scannable, f.returns.push l.returns, f.ends.push l.ends⟩

/-- Takes the last level off. -/
def pop (f : FlatStack) : FlatStack := ⟨f.states.pop, f.returns.pop, f.ends.pop⟩

/-- The number of bytes that were read. -/
def position (f : FlatStack) : Nat := f.states.starts.size - 1

/-- Takes the last `n` levels off, one by one. -/
def popLast : (n : Nat) → FlatStack → FlatStack
  | 0, f => f
  | n + 1, f => popLast n f.pop

/-- Takes the last levels off; the first one stays. -/
def drop (f : FlatStack) (count : Nat) : FlatStack := popLast (min count f.position) f

/-- What waits at a level. -/
def returnsAt (f : FlatStack) (level : Nat) : Array (RuleId × State) := f.returns.part level

/-- The states from which the next byte can be read. -/
def current (f : FlatStack) : Array State := f.states.last

/-- Whether the text may end here. -/
def mayEnd (f : FlatStack) : Bool := f.ends.back?.getD false

/-- Both arrays have a start for each level, in order and inside the array, and each level says whether
the text may end there. -/
structure Sound (f : FlatStack) : Prop where
  states : f.states.Sound
  returns : f.returns.Sound
  returns_size : f.returns.starts.size = f.states.starts.size
  ends_size : f.ends.size = f.states.starts.size

@[simp] theorem pop_push (f : FlatStack) (l : Level) : (f.push l).pop = f := by simp [push, pop]

end FlatStack

namespace Stack

/-- A stack, laid out flat. -/
def flat (stack : Stack) : FlatStack :=
  ⟨.ofParts (stack.map Level.scannable), .ofParts (stack.map Level.returns), stack.map Level.ends⟩

variable {stack : Stack}

theorem sound_flat (stack : Stack) : stack.flat.Sound :=
  ⟨Packed.sound_ofParts _, Packed.sound_ofParts _, by simp [flat], by simp [flat]⟩

@[simp] theorem position_flat (stack : Stack) : stack.flat.position = stack.position := by
  simp [flat, FlatStack.position, position]

/-- Putting a level on top is the same on both stacks. -/
@[simp] theorem flat_push (stack : Stack) (l : Level) : flat (stack.push l) = stack.flat.push l := by
  simp [flat, FlatStack.push]

theorem popLast_flat (n : Nat) : ∀ {stack : Stack}, n ≤ stack.size →
    stack.flat.popLast n = flat (stack.shrink (stack.size - n)) := by
  induction n with
  | zero => simp [FlatStack.popLast]
  | succ n ih =>
    intro stack hn
    obtain ⟨below, l, rfl⟩ := Array.eq_push_of_size_ne_zero (show stack.size ≠ 0 by omega)
    have hn : n ≤ below.size := by simpa using hn
    have shrink : Array.shrink (below.push l) (below.size - n) = below.shrink (below.size - n) :=
      Array.toList_inj.1 (by simp)
    rw [FlatStack.popLast, flat_push, FlatStack.pop_push, ih hn, Array.size_push, Nat.add_sub_add_right, shrink]

/-- Taking levels off is the same on both stacks. -/
theorem flat_drop (h : stack.size ≠ 0) (count : Nat) : flat (stack.drop count) = stack.flat.drop count := by
  have left : max 1 (stack.size - count) = stack.size - min count stack.position := by
    rw [position]
    omega
  rw [FlatStack.drop, position_flat, popLast_flat _ (by rw [position]; omega), drop, left]

/-- What waits at a level is found again. -/
theorem returnsAt_flat {level : Nat} {l : Level} (h : stack[level]? = some l) :
    stack.flat.returnsAt level = l.returns :=
  Packed.part_ofParts (by simp [h])

@[simp] theorem current_flat (stack : Stack) : stack.flat.current = stack.current := by
  by_cases h : stack.size = 0
  · obtain rfl := Array.eq_empty_of_size_eq_zero h
    simp [flat, FlatStack.current, Packed.ofParts, Packed.empty, Packed.last, current]
  · obtain ⟨below, l, rfl⟩ := Array.eq_push_of_size_ne_zero h
    simp [FlatStack.current, FlatStack.push, current]

@[simp] theorem mayEnd_flat (stack : Stack) : stack.flat.mayEnd = stack.mayEnd := by
  rw [FlatStack.mayEnd, flat, Array.back?_map, mayEnd]
  cases stack.back? <;> rfl

/-- A flat stack is sound, and what is looked up in it is what a stack has. -/
structure StandsFor (f : FlatStack) (stack : Stack) : Prop where
  sound : f.Sound
  position : f.position = stack.position
  current : f.current = stack.current
  mayEnd : f.mayEnd = stack.mayEnd
  returnsAt : ∀ level l, stack[level]? = some l → f.returnsAt level = l.returns

/-- Whatever is looked up on a stack is found on the flat one. -/
theorem standsFor_flat (stack : Stack) : StandsFor stack.flat stack :=
  ⟨sound_flat stack, position_flat stack, current_flat stack, mayEnd_flat stack, fun _ _ => returnsAt_flat⟩

end Stack

/-! ## One move after another -/

/-- What is done to a stack. -/
inductive Stack.Move
  /-- A level is put on top. -/
  | push (l : Level)
  /-- Levels are taken off. -/
  | drop (count : Nat)

/-- A stack after a move. -/
def Stack.move (stack : Stack) : Move → Stack
  | .push l => Array.push stack l
  | .drop count => stack.drop count

/-- A flat stack after a move. -/
def FlatStack.move (f : FlatStack) : Stack.Move → FlatStack
  | .push l => f.push l
  | .drop count => f.drop count

namespace Stack

variable {stack : Stack}

/-- No move takes the first level off. -/
theorem size_move_ne_zero (h : stack.size ≠ 0) (move : Move) : (stack.move move).size ≠ 0 := by
  cases move with
  | push l => simp [Stack.move]
  | drop count =>
    simp only [Stack.move, drop, Array.size_shrink]
    omega

/-- A move is the same on both stacks. -/
theorem flat_move (h : stack.size ≠ 0) (move : Move) : flat (stack.move move) = stack.flat.move move := by
  cases move with
  | push l => exact flat_push stack l
  | drop count => exact flat_drop h count

/-- So is any number of moves, one after another. -/
theorem flat_foldl_move (moves : List Move) : ∀ {stack : Stack}, stack.size ≠ 0 →
    flat (moves.foldl Stack.move stack) = moves.foldl FlatStack.move stack.flat := by
  induction moves with
  | nil => exact fun _ => rfl
  | cons move moves ih =>
    intro stack h
    rw [List.foldl_cons, List.foldl_cons, ih (size_move_ne_zero h move), flat_move h]

/-- Wherever moves lead a flat stack, it is sound there, and whatever is looked up on the stack to which they
lead is found on it. -/
theorem standsFor_foldl_move (h : stack.size ≠ 0) (moves : List Move) :
    StandsFor (moves.foldl FlatStack.move stack.flat) (moves.foldl Stack.move stack) :=
  flat_foldl_move moves h ▸ standsFor_flat _

end Stack

end ConstrainedDecoding
