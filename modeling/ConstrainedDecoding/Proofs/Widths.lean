import ConstrainedDecoding.Matcher.Basic
import ConstrainedDecoding.Proofs.Lookups
import ConstrainedDecoding.Proofs.Texts

/-!
# How wide the parts of a state are

The parts of a state are natural numbers, but small ones. Rules and places in tables can be told apart with
16 bits. The depth of a rule never exceeds the ceiling, which has 32 bits, for a rule is called from a state
below the ceiling only. The level at which a rule was entered has 32 bits too while there are fewer levels
than 32 bits can count, and the number of all bits is left over for the root, which was entered at none.
-/
namespace ConstrainedDecoding.Stack

/-- The number that no level has. -/
def noLevel : Nat := 0xFFFFFFFF

/-- A rule and a place of 16 bits each, and a level and a depth of 32 bits each. -/
structure State.Fits (s : State) : Prop where
  rule : s.rule < 0x10000
  state : s.state < 0x10000
  entered : ∀ q, s.entered = some q → q < noLevel
  depth : Payload.Fits32 s.depth

/-- The states of a level fit, and the rules that were called at it. -/
structure Level.Fits (l : Level) : Prop where
  scannable : ∀ s ∈ l.scannable, s.Fits
  returns : ∀ x ∈ l.returns, x.1 < 0x10000 ∧ x.2.Fits

/-- All that is queued or noted while a level is built fits. -/
structure Work.Fits (w : Work) : Prop where
  queue : ∀ s ∈ w.queue, s.Fits
  level : w.level.Fits

section

variable {c : Compiled} {maxDepth n : Nat} {s : State}

theorem rule_fits (hc : c.Sound) {r : RuleId} (hr : r < c.tables.size) : r < 0x10000 :=
  hr.trans (hc.rules_lt.trans (by decide))

/-- A state in the tables fits if there are few levels and the ceiling is not too high. -/
theorem State.Before.fits (hc : c.Sound) (h : s.Before c n) (levels : n ≤ noLevel) (depth : s.depth ≤ maxDepth)
    (ceiling : maxDepth ≤ Matcher.deepest) : s.Fits where
  rule := rule_fits hc h.rule_lt
  state := h.state_lt.trans ((hc.regular.table _ h.rule_lt).size_lt.trans (by decide))
  entered q hq := (h.entered_lt q hq).trans_le levels
  depth := (depth.trans ceiling).trans_lt (by decide)

end

/-! ## No rule is nested deeper than the ceiling -/

/-- The states of a level, and those that wait at it, are nested no deeper than a ceiling. -/
structure Level.Shallow (maxDepth : Nat) (l : Level) : Prop where
  scannable : ∀ s ∈ l.scannable, s.depth ≤ maxDepth
  returns : ∀ x ∈ l.returns, x.2.depth ≤ maxDepth

/-- No state of a stack is nested deeper than a ceiling. -/
def Shallow (maxDepth : Nat) (stack : Stack) : Prop := ∀ l ∈ stack, l.Shallow maxDepth

namespace Work

/-- No state of a level under construction is nested deeper than a ceiling. -/
structure Shallow (maxDepth : Nat) (w : Work) : Prop where
  queue : ∀ s ∈ w.queue, s.depth ≤ maxDepth
  level : w.level.Shallow maxDepth

section

variable {c : Compiled} {maxDepth : Nat} {stack : Stack} {Seed : State → Prop} {w w' : Work}

theorem shallow_empty (maxDepth : Nat) : empty.Shallow maxDepth :=
  ⟨by simp [empty], by simp [empty, level], by simp [empty, level]⟩

theorem Shallow.add (h : w.Shallow maxDepth) {s : State} (hs : s.depth ≤ maxDepth) : (w.add s).Shallow maxDepth :=
  ⟨Array.forall_mem_push.2 ⟨hs, h.queue⟩, h.level⟩

theorem Shallow.scannable (h : w.Shallow maxDepth) {s : State} (hs : s.depth ≤ maxDepth) :
    Level.Shallow maxDepth ⟨w.scannable.push s, w.returns, w.ends⟩ :=
  ⟨Array.forall_mem_push.2 ⟨hs, h.level.scannable⟩, h.level.returns⟩

/-- What waits for a rule waits at the level under construction or on the stack. -/
theorem Shallow.waiting (h : w.Shallow maxDepth) (hstack : stack.Shallow maxDepth) {level : Nat}
    {x : RuleId × State} (hx : x ∈ w.waiting stack level) : x.2.depth ≤ maxDepth := by
  unfold Work.waiting at hx
  split at hx
  · exact h.level.returns x hx
  · split at hx
    · rename_i l hl
      exact (hstack l (Array.mem_of_getElem? hl)).returns x hx
    · simp at hx

/-- Only calling a rule leads deeper, and a rule is called below the ceiling only. -/
theorem Change.shallow (hstack : stack.Shallow maxDepth) (hseed : ∀ s, Seed s → s.depth ≤ maxDepth)
    (h : Change c maxDepth stack Seed w w') (hw : w.Shallow maxDepth) : w'.Shallow maxDepth := by
  cases h with
  | seed seed => exact hw.add (hseed _ seed)
  | pass seed => exact ⟨hw.queue, hw.scannable (hseed _ seed)⟩
  | @wait s r t mem shallow call =>
    refine ⟨hw.queue, hw.level.scannable, fun x hx => ?_⟩
    rcases Array.mem_push.1 hx with hx | rfl
    exacts [hw.level.returns x hx, hw.queue s mem]
  | start mem shallow => exact hw.add shallow
  | resume ended mem => exact hw.add (hw.waiting hstack mem)
  | finish | stop => exact ⟨hw.queue, hw.level.scannable, hw.level.returns⟩
  | scan mem => exact ⟨hw.queue, hw.scannable (hw.queue _ mem)⟩

theorem Changes.shallow (hstack : stack.Shallow maxDepth) (hseed : ∀ s, Seed s → s.depth ≤ maxDepth)
    (h : Changes c maxDepth stack Seed empty w) : w.Shallow maxDepth := by
  induction h with
  | refl => exact shallow_empty maxDepth
  | tail _ change ih => exact change.shallow hstack hseed ih

end

end Work

section

variable {c : Compiled} {maxDepth : Nat} {stack : Stack} {b : UInt8} {s : State}

theorem Shallow.push (h : stack.Shallow maxDepth) {l : Level} (hl : l.Shallow maxDepth) :
    Shallow maxDepth (Array.push stack l) :=
  Array.forall_mem_push.2 ⟨hl, h⟩

theorem Shallow.drop (h : stack.Shallow maxDepth) (count : Nat) : (stack.drop count).Shallow maxDepth := by
  intro l hl
  have hl : l ∈ stack.toList.take (max 1 (stack.size - count)) := by
    simpa [Stack.drop] using Array.mem_toList_iff.2 hl
  exact h l (Array.mem_toList_iff.1 (List.mem_of_mem_take hl))

/-- Reading a byte leads no deeper. -/
theorem Next.shallow (h : stack.Shallow maxDepth) (hs : Next c stack b s) : s.depth ≤ maxDepth := by
  obtain ⟨s, hs, t, -, rfl⟩ := hs
  unfold current at hs
  split at hs
  · rename_i l hl
    exact (h l (Array.mem_of_back? hl)).scannable s hs
  · simp at hs

end

end ConstrainedDecoding.Stack
