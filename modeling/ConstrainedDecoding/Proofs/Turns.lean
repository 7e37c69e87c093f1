import ConstrainedDecoding.Proofs.Containment
import ConstrainedDecoding.Proofs.Recognition

/-!
# Queues come to their end

While the states of a queue are dealt with, further ones are queued behind them: the first states of
rules that are called, and what goes on after rules that end, which may have been entered at levels
before. All the same there comes a turn after which no queued state is left. A state is told apart by
its rule, its place in the rule's table and the level at which the rule was entered; of these there
are finitely many, and none is queued twice, however deep the rule is nested each time.
-/
namespace ConstrainedDecoding.Stack.Work

open Relation (ReflTransGen)

/-- How many queued states have been dealt with, and the level under construction. -/
abbrev Stage := Nat × Work

section

variable (c : Compiled) (maxDepth : Nat) (stack : Stack)

/-- A turn deals with the next queued state. There is none when all of them have been dealt with. -/
inductive Turn : Stage → Stage → Prop
  | turn {i : Nat} {w : Work} {s : State} (next : w.queue[i]? = some s) :
    Turn (i, w) (i + 1, step c maxDepth stack s w)

/-- Any number of turns. -/
abbrev Turns : Stage → Stage → Prop := ReflTransGen (Turn c maxDepth stack)

/-- The queue of a level comes to its end, whatever is queued on the way: the turns from its first state
on cannot go on for ever, they end with the level that is built, when all queued states have been
dealt with, and at no stage is a state queued twice or are there more than can be told apart. -/
structure ComesToEnd (w₀ : Work) : Prop where
  ends : Acc (fun y x => Turn c maxDepth stack x y) (0, w₀)
  built : Turns c maxDepth stack (0, w₀)
    ((runAll c maxDepth stack w₀).queue.size, runAll c maxDepth stack w₀)
  once : ∀ i w, Turns c maxDepth stack (0, w₀) (i, w) →
    (w.queue.toList.map State.key).Nodup ∧ w.queue.size ≤ capacity c stack

end

variable {c : Compiled} {maxDepth : Nat} {stack : Stack}

/-- Working off a queue is a sequence of turns. It stops when the queue is at its end, or else after as
many turns as were asked for. -/
theorem exists_turns_run (fuel : Nat) : ∀ (i : Nat) (w : Work), ∃ j,
    Turns c maxDepth stack (i, w) (j, run c maxDepth stack fuel i w) ∧
      (j = i + fuel ∨ (run c maxDepth stack fuel i w).queue.size ≤ j) := by
  induction fuel with
  | zero =>
    intro i w
    exact ⟨i, .refl, Or.inl rfl⟩
  | succ fuel ih =>
    intro i w
    rw [run]
    cases hnext : w.queue[i]? with
    | none =>
      have atEnd : w.queue.size ≤ i := by simpa using hnext
      exact ⟨i, .refl, Or.inr atEnd⟩
    | some s =>
      obtain ⟨j, turns, stops⟩ := ih (i + 1) (step c maxDepth stack s w)
      refine ⟨j, .head (.turn hnext) turns, ?_⟩
      apply stops.imp_left
      intro hj
      omega

/-- What holds of a stage: no more states have been dealt with than were queued, and the level is
underway. -/
structure Stage.Underway (c : Compiled) (maxDepth : Nat) (stack : Stack) (Seed : State → Prop)
    (x : Stage) : Prop where
  le_size : x.1 ≤ x.2.queue.size
  work : Work.Underway c maxDepth stack Seed x.2

section

variable {Seed : State → Prop} {x y : Stage} (hc : c.Regular) (hstack : stack.InRange c)
  (hseed : ∀ s, Seed s → s.Before c stack.size)

include hc hstack hseed

/-- A turn keeps a level underway. -/
theorem Turn.underway (turn : Turn c maxDepth stack x y)
    (h : Stage.Underway c maxDepth stack Seed x) : Stage.Underway c maxDepth stack Seed y := by
  cases turn with
  | @turn i w s next =>
    obtain ⟨work, within, -⟩ := step_spec hc hstack hseed h.work (Array.mem_of_getElem? next)
    obtain ⟨more, hmore⟩ := within.queue
    have lt : i < w.queue.size := (Array.getElem?_eq_some_iff.1 next).1
    refine ⟨?_, work⟩
    simp only [hmore, Array.size_append]
    omega

/-- So do any number of turns. -/
theorem Turns.underway (turns : Turns c maxDepth stack x y)
    (h : Stage.Underway c maxDepth stack Seed x) : Stage.Underway c maxDepth stack Seed y := by
  induction turns with
  | refl => exact h
  | tail _ turn ih => exact turn.underway hc hstack hseed ih

theorem Stage.Underway.placed (h : Stage.Underway c maxDepth stack Seed x) : Placed c stack x.2 :=
  Changes.placed hc hstack hseed h.work.changes

/-- Each turn leaves fewer states that can still be queued and dealt with. -/
theorem Turn.left_lt (turn : Turn c maxDepth stack x y)
    (h : Stage.Underway c maxDepth stack Seed x) : capacity c stack - y.1 < capacity c stack - x.1 := by
  cases turn with
  | @turn i w s next =>
    have lt : i < w.queue.size := (Array.getElem?_eq_some_iff.1 next).1
    have enough : w.queue.size ≤ capacity c stack := (h.placed hc hstack hseed).size_le
    change capacity c stack - (i + 1) < capacity c stack - i
    omega

/-- The turns from a level that is underway cannot go on for ever. -/
theorem Stage.Underway.acc (h : Stage.Underway c maxDepth stack Seed x) :
    Acc (fun y x => Turn c maxDepth stack x y) x := by
  have wf : WellFounded (InvImage (· < ·) fun x : Stage => capacity c stack - x.1) :=
    InvImage.wf _ Nat.lt_wfRel.wf
  induction x using wf.induction with
  | _ x ih =>
    apply Acc.intro
    intro y turn
    exact ih y (turn.left_lt hc hstack hseed h) (turn.underway hc hstack hseed h)

/-- The queue of a level that is underway comes to its end. -/
theorem comesToEnd_of_underway {w : Work} (h : Work.Underway c maxDepth stack Seed w) :
    ComesToEnd c maxDepth stack w := by
  have start : Stage.Underway c maxDepth stack Seed (0, w) := ⟨Nat.zero_le _, h⟩
  refine ⟨start.acc hc hstack hseed, ?_, fun i w' turns => ?_⟩
  · obtain ⟨j, turns, stops⟩ := @exists_turns_run c maxDepth stack (capacity c stack) 0 w
    have last := Turns.underway hc hstack hseed turns start
    have enough := (last.placed hc hstack hseed).size_le
    -- The number of turns that are asked for is never what stops them.
    have atEnd : (runAll c maxDepth stack w).queue.size = j := by
      apply Nat.le_antisymm ?_ last.le_size
      cases stops with
      | inl all => exact enough.trans (by omega)
      | inr atEnd => exact atEnd
    exact atEnd ▸ turns
  · have placed := (Turns.underway hc hstack hseed turns start).placed hc hstack hseed
    exact ⟨placed.nodup, placed.size_le⟩

end

end ConstrainedDecoding.Stack.Work

namespace ConstrainedDecoding.Stack

open Work Compiled

/-- Whatever the rules of a compiled grammar call, and however deep they may be nested, the queue of the
first level comes to its end, and so does the queue of the level that a byte leads to, on every stack
that levels were put on and taken off. -/
theorem queues_come_to_end {v : Vocabulary} {c : Compiled} (hc : c.IsCompiled v ∨ c.IsRead v)
    (maxDepth : Nat) : ComesToEnd c maxDepth #[] (empty.add (rootState c)) ∧
      ∀ stack, Visits c maxDepth (start c maxDepth) stack → ∀ b,
        ComesToEnd c maxDepth stack (stack.current.foldl (scan c b) empty) := by
  have regular : c.Regular := regular_of_made hc
  constructor
  · refine comesToEnd_of_underway regular ?_ ?_ (underway_root c maxDepth)
    · intro q l hl
      simp at hl
    · intro s hs
      exact hs ▸ before_rootState regular
  · intro stack visits b
    have sound := visits.sound regular (sound_start regular maxDepth)
    exact comesToEnd_of_underway regular sound.levels (fun s hs => hs.before regular sound.levels)
      (underway_scans c maxDepth stack b).1

/-- How many states are queued at the first level, and at the level that a byte leads to from there. -/
def queueSizes (c : Compiled) (maxDepth : Nat) (b : UInt8) : Nat × Nat :=
  ((startWork c maxDepth).queue.size, (nextWork c maxDepth (start c maxDepth) b).queue.size)

/-- A rule that calls itself at its left end, and may be left without reading anything, is called over
and over at each level: after four turns the queue of the second one comes to its end. -/
theorem repeatedX_comes_to_end : ∃ c, compile Matcher.repeatedX Matcher.onlyX = .ok c ∧
    let stack := start c 10
    let w := stack.current.foldl (scan c 120) empty
    ComesToEnd c 10 stack w ∧ Turns c 10 stack (0, w) (4, nextWork c 10 stack 120) := by
  have sizes : (compile Matcher.repeatedX Matcher.onlyX).toOption.map (queueSizes · 10 120) =
      some (4, 4) := by decide +kernel
  obtain ⟨c, hc, sizes⟩ := Option.map_eq_some_iff.1 sizes
  have hc := Except.toOption_eq_some.1 hc
  have made : c.IsCompiled Matcher.onlyX := ⟨_, Matcher.valid_repeatedX, hc⟩
  obtain ⟨-, next⟩ := queues_come_to_end (Or.inl made) 10
  have second := next (start c 10) .here 120
  have size : (nextWork c 10 (start c 10) 120).queue.size = 4 := congrArg Prod.snd sizes
  exact ⟨c, hc, second, size ▸ second.built⟩

end ConstrainedDecoding.Stack
