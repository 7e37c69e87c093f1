import ConstrainedDecoding.Proofs.FlatStacks
import ConstrainedDecoding.Proofs.SingleTable
import ConstrainedDecoding.Proofs.Widths

/-!
# No lookup leaves its table

Whatever is asked of a matcher, the states at which it stands, those that it queues while it builds a level
and those that it only tries lie in the tables, and a rule was entered at a level that there is. The
stack is followed step by step: a level is put on it, or levels are taken off, and either keeps it sound,
and so the arrays in which it is laid out flat.
-/
namespace ConstrainedDecoding

namespace Stack

variable {c : Compiled} {maxDepth : Nat} {stack : Stack}

/-! ## Levels under construction -/

/-- What is looked up while a level is built lies in the tables, or at a level that there is. -/
structure Work.InRange (c : Compiled) (stack : Stack) (w : Work) : Prop where
  queue : ∀ s ∈ w.queue, s.Before c (stack.size + 1)
  scannable : ∀ s ∈ w.scannable, s.Before c (stack.size + 1)
  returns : ∀ x ∈ w.returns, x.1 < c.tables.size ∧ x.2.Before c (stack.size + 1)

theorem Work.Underway.inRange {Seed : State → Prop} {w : Work} (hc : c.Regular) (hstack : stack.InRange c)
    (hseed : ∀ s, Seed s → s.Before c stack.size) (h : Underway c maxDepth stack Seed w) : w.InRange c stack := by
  have founded := Changes.founded h.changes
  have placed := Changes.placed hc hstack hseed h.changes
  have level := placed.inRange hc founded
  exact ⟨placed.queue, placed.scannable, fun x hx => ⟨level.callees x hx, level.returns x hx⟩⟩

/-- A stage of the first level: some of the queued states have been dealt with. -/
def startStage (c : Compiled) (maxDepth n : Nat) : Work :=
  Work.run c maxDepth #[] n 0 (Work.empty.add (rootState c))

/-- A stage of the level that a byte leads to. -/
def nextStage (c : Compiled) (maxDepth : Nat) (stack : Stack) (b : UInt8) (n : Nat) : Work :=
  Work.run c maxDepth stack n 0 (stack.current.foldl (Work.scan c b) .empty)

theorem underway_startStage (hc : c.Regular) (maxDepth n : Nat) :
    Work.Underway c maxDepth #[] (· = rootState c) (startStage c maxDepth n) :=
  Work.underway_run hc (fun q l hl => by simp at hl) (fun s hs => hs ▸ before_rootState hc) n
    (underway_root c maxDepth)

theorem underway_nextStage (hc : c.Regular) (hstack : stack.InRange c) (b : UInt8) (n : Nat) :
    Work.Underway c maxDepth stack (Next c stack b) (nextStage c maxDepth stack b n) :=
  Work.underway_run hc hstack (fun _ hs => hs.before hc hstack) n (underway_scans c maxDepth stack b).1

theorem inRange_startStage (hc : c.Regular) (maxDepth n : Nat) :
    (startStage c maxDepth n).InRange c #[] :=
  have seed : ∀ s, s = rootState c → s.Before c (#[] : Stack).size := fun s hs => hs ▸ before_rootState hc
  (underway_startStage hc maxDepth n).inRange hc (fun q l hl => by simp at hl) seed

theorem inRange_nextStage (hc : c.Regular) (hstack : stack.InRange c) (b : UInt8) (n : Nat) :
    (nextStage c maxDepth stack b n).InRange c stack :=
  (underway_nextStage hc hstack b n).inRange hc hstack fun _ hs => hs.before hc hstack

theorem shallow_startStage (hc : c.Regular) (maxDepth n : Nat) : (startStage c maxDepth n).Shallow maxDepth :=
  have seed : ∀ s, s = rootState c → s.depth ≤ maxDepth := fun s hs => hs ▸ Nat.zero_le maxDepth
  (underway_startStage hc maxDepth n).changes.shallow (by simp [Shallow]) seed

theorem shallow_nextStage (hc : c.Regular) (hstack : stack.InRange c) (hshallow : stack.Shallow maxDepth)
    (b : UInt8) (n : Nat) : (nextStage c maxDepth stack b n).Shallow maxDepth :=
  (underway_nextStage hc hstack b n).changes.shallow hshallow fun _ hs => hs.shallow hshallow

/-! ## Stacks -/

/-- What lookups on a stack rely on, and those while the next level is built. -/
structure Sound (c : Compiled) (maxDepth : Nat) (stack : Stack) : Prop where
  standing : stack.size ≠ 0
  levels : stack.InRange c
  shallow : stack.Shallow maxDepth
  next : ∀ b n, (nextStage c maxDepth stack b n).InRange c stack

theorem sound_of_inRange (hc : c.Regular) (standing : stack.size ≠ 0) (levels : stack.InRange c)
    (shallow : stack.Shallow maxDepth) : stack.Sound c maxDepth :=
  ⟨standing, levels, shallow, inRange_nextStage hc levels⟩

theorem sound_start (hc : c.Regular) (maxDepth : Nat) : (start c maxDepth).Sound c maxDepth := by
  refine sound_of_inRange hc (by simp [start]) (show InRange c (levels c maxDepth []) from inRange_levels hc []) ?_
  intro l hl
  obtain rfl := Array.mem_singleton.1 hl
  exact (shallow_startStage hc maxDepth _).level

/-- A byte puts a level on the stack. -/
theorem Sound.push (hc : c.Regular) (h : stack.Sound c maxDepth) {b : UInt8} {l : Level}
    (hl : next? c maxDepth stack b = some l) : Sound c maxDepth (Array.push stack l) := by
  obtain ⟨-, rfl⟩ := next?_eq_some.1 hl
  have shallow : (nextWork c maxDepth stack b).Shallow maxDepth := shallow_nextStage hc h.levels h.shallow b _
  exact sound_of_inRange hc (by simp) ((nextWork_spec hc h.levels b).inRange hc h.levels)
    (h.shallow.push shallow.level)

theorem Sound.drop (hc : c.Regular) (h : stack.Sound c maxDepth) (n : Nat) : (stack.drop n).Sound c maxDepth := by
  refine sound_of_inRange hc (size_move_ne_zero h.standing (.drop n)) (fun q l hl => h.levels q l ?_)
    (h.shallow.drop n)
  rw [Stack.drop, Array.shrink_eq_take, Array.take_eq_extract, Array.getElem?_extract] at hl
  split at hl
  · rwa [Nat.zero_add] at hl
  · cases hl

/-! ## Widths -/

theorem Level.fits (hc : c.Sound) {l : Level} {q : Nat} (h : l.InRange c q) (shallow : l.Shallow maxDepth)
    (few : q < noLevel) (ceiling : maxDepth ≤ Matcher.deepest) : l.Fits where
  scannable s hs := (h.scannable s hs).fits hc few (shallow.scannable s hs) ceiling
  returns x hx := ⟨rule_fits hc (h.callees x hx), (h.returns x hx).fits hc few (shallow.returns x hx) ceiling⟩

theorem Work.fits (hc : c.Sound) {w : Work} (h : w.InRange c stack) (shallow : w.Shallow maxDepth)
    (few : stack.size < noLevel) (ceiling : maxDepth ≤ Matcher.deepest) : w.Fits where
  queue s hs := (h.queue s hs).fits hc few (shallow.queue s hs) ceiling
  level := Level.fits hc ⟨h.scannable, fun x hx => (h.returns x hx).2, fun x hx => (h.returns x hx).1⟩
    shallow.level few ceiling

/-- What a sound stack holds fits in a few words, and so does what is noted while the next level is built. -/
theorem Sound.fits (hc : c.Sound) (h : stack.Sound c maxDepth) (few : stack.size < noLevel)
    (ceiling : maxDepth ≤ Matcher.deepest) :
    (∀ l ∈ stack, l.Fits) ∧ ∀ b n, (nextStage c maxDepth stack b n).Fits := by
  refine ⟨fun l hl => ?_, fun b n => Work.fits hc (h.next b n) ?_ few ceiling⟩
  · obtain ⟨q, hq⟩ := Array.mem_iff_getElem?.1 hl
    have inside : q < stack.size := (Array.getElem?_eq_some_iff.1 hq).1
    exact Level.fits hc (h.levels q l hq) (h.shallow l hl) (inside.trans few) ceiling
  · exact shallow_nextStage hc.regular h.levels h.shallow b n

/-! ## Visits -/

/-- The stacks that come up while a stack is worked on: levels are put on it and taken off. -/
inductive Visits (c : Compiled) (maxDepth : Nat) (stack : Stack) : Stack → Prop
  | here : Visits c maxDepth stack stack
  | push {s : Stack} {b : UInt8} {l : Level} (h : Visits c maxDepth stack s)
    (hl : next? c maxDepth s b = some l) : Visits c maxDepth stack (Array.push s l)
  | drop {s : Stack} (h : Visits c maxDepth stack s) (n : Nat) : Visits c maxDepth stack (s.drop n)

theorem Visits.sound (hc : c.Regular) {s : Stack} (visits : Visits c maxDepth stack s)
    (h : stack.Sound c maxDepth) : s.Sound c maxDepth := by
  induction visits with
  | here => exact h
  | push _ hl ih => exact ih.push hc hl
  | drop _ n ih => exact ih.drop hc n

theorem Visits.trans {s s' : Stack} (h : Visits c maxDepth stack s) (h' : Visits c maxDepth s s') :
    Visits c maxDepth stack s' := by
  induction h' with
  | here => exact h
  | push _ hl ih => exact ih.push hl
  | drop _ n ih => exact ih.drop n

/-- Each visit is a run of moves. -/
theorem Visits.exists_moves {s : Stack} (visits : Visits c maxDepth stack s) :
    ∃ moves : List Move, moves.foldl Stack.move stack = s := by
  induction visits with
  | here => exact ⟨[], rfl⟩
  | @push s b l _ _ ih =>
    obtain ⟨moves, rfl⟩ := ih
    exact ⟨moves ++ [.push l], by simp [Stack.move]⟩
  | @drop s _ n ih =>
    obtain ⟨moves, rfl⟩ := ih
    exact ⟨moves ++ [.drop n], by simp [Stack.move]⟩

/-- Reading puts one level on the stack for each byte. -/
theorem Visits.readWhile (bs : Bytes) : ∀ {s : Stack}, Visits c maxDepth stack s →
    Visits c maxDepth stack (readWhile c maxDepth s bs).1 := by
  induction bs with
  | nil => exact id
  | cons b bs ih =>
    intro s h
    rw [Stack.readWhile]
    split
    · exact h
    · rename_i l hl
      exact ih (h.push hl)

theorem Visits.advance {s : Stack} (h : Visits c maxDepth stack s) (bs : Bytes) :
    Visits c maxDepth stack (advance c maxDepth s bs).2 := by
  have read := h.readWhile bs
  rw [Stack.advance]
  split
  · rename_i hread
    rw [hread] at read
    exact read
  · rename_i hread
    rw [hread] at read
    exact read.drop _

/-- Following forced bytes puts one level on the stack for each of them. -/
theorem Visits.follow (n : Nat) : ∀ {s : Stack}, Visits c maxDepth stack s →
    Visits c maxDepth stack (follow c maxDepth n s).2 := by
  induction n with
  | zero => exact id
  | succ n ih =>
    intro s h
    rw [Stack.follow]
    split
    · exact h
    · split
      · exact h
      · split
        · exact h
        · rename_i l hl
          exact ih (h.push hl)

end Stack

namespace Matcher

open Stack (Visits)

variable {c : Compiled} {maxDepth : Nat} {stack : Stack}

/-! ## Tokens that are tried -/

theorem visits_attempt {t : Trial} (h : Visits c maxDepth stack t.stack) (id : Nat) (bytes : Bytes) :
    Visits c maxDepth stack (t.attempt c maxDepth id bytes).stack := by
  have read := (h.drop (t.read.length - commonLength bytes t.read)).readWhile
    (bytes.drop (commonLength bytes t.read))
  simp only [Trial.attempt]
  split <;> rename_i hread <;> rw [hread] at read <;> exact read

theorem visits_tokens (places : List Nat) : ∀ {t : Trial}, Visits c maxDepth stack t.stack →
    Visits c maxDepth stack (places.foldl (Trial.token c maxDepth) t).stack := by
  induction places with
  | nil => exact id
  | cons place places ih =>
    intro t h
    refine ih ?_
    simp only [Trial.token]
    split
    · exact h
    · exact visits_attempt h _ _

/-- Trying tokens only goes through stacks that come up while a stack is worked on. -/
theorem visits_tryTokens (places : List Nat) (row : Bitmask) :
    Visits c maxDepth stack (tryTokens c maxDepth stack places row).2 :=
  (visits_tokens places (t := ⟨stack, [], [], row⟩) .here).drop _

/-! ## Matchers -/

/-- The states at which a text stands, and those to which it can be taken back, lie in the tables. -/
def Position.Sound (c : Compiled) (maxDepth : Nat) : Position → Prop
  | .single s before => ∀ s' ∈ s :: before, s' < (c.table c.root).size
  | .stacked stack => stack.Sound c maxDepth

/-- A stack has come up since the start of the text, and a single state lies in its table. -/
def Position.Visited (c : Compiled) (maxDepth : Nat) : Position → Prop
  | .single s before => ∀ s' ∈ s :: before, s' < (c.table c.root).size
  | .stacked stack => Visits c maxDepth (Stack.start c maxDepth) stack

theorem Position.Visited.sound (hc : c.Regular) : ∀ {p : Position}, p.Visited c maxDepth → p.Sound c maxDepth
  | .single _ _, h => h
  | .stacked _, h => Visits.sound hc h (Stack.sound_start hc maxDepth)

theorem visited_startPosition (hc : c.Regular) (maxDepth : Nat) :
    (startPosition c maxDepth).Visited c maxDepth := by
  unfold startPosition
  split
  · simpa [Position.Visited] using (hc.table _ hc.root_lt).pos
  · exact .here

/-- A matcher on a compiled grammar stands where lookups stay inside. -/
structure Contained (c : Compiled) (m : Matcher) : Prop where
  compiled : m.compiled = c
  position : m.position.Visited c m.ceiling

variable {m : Matcher}

theorem contained_new (hc : c.Regular) (o : Options) (usualDepth : Nat) : (new c o usualDepth).Contained c :=
  ⟨rfl, visited_startPosition hc _⟩

/-- Following a stack leads to where lookups stay inside. -/
theorem Contained.moved (h : m.Contained c) (hm : m.position = .stacked stack) {s : Stack}
    (visits : Visits c m.ceiling stack s) : Contained c { m with position := .stacked s } := by
  have before := h.position
  rw [hm] at before
  exact ⟨h.compiled, Visits.trans before visits⟩

theorem Contained.advance (hc : c.Regular) (h : m.Contained c) (bytes : Bytes) : (m.advance bytes).2.Contained c := by
  have sound := h.position
  obtain rfl := h.compiled
  cases hm : m.position with
  | single s before =>
    rw [hm] at sound
    simp only [Matcher.advance, hm]
    cases hrun : m.rootTable.run? s bytes with
    | none => exact h
    | some s' =>
      have hs' : s' < m.rootTable.size :=
        Table.run?_lt (hc.table _ hc.root_lt) bytes (sound s List.mem_cons_self) hrun
      exact ⟨rfl, List.forall_mem_cons.2 ⟨hs', sound⟩⟩
  | stacked stack =>
    simp only [Matcher.advance, hm]
    exact h.moved hm (Visits.here.advance bytes)

theorem Contained.forgetOldest (h : m.Contained c) : m.forgetOldest.Contained c := by
  unfold Matcher.forgetOldest
  split
  · rename_i s before _ hm
    have sound := h.position
    rw [hm] at sound
    refine ⟨h.compiled, fun s' hs' => sound s' ?_⟩
    exact (List.mem_cons.1 hs').elim (fun heq => heq ▸ List.mem_cons_self)
      fun hs' => List.mem_cons_of_mem _ (List.mem_of_mem_dropLast hs')
  · exact ⟨h.compiled, h.position⟩

theorem Contained.forget (n : Nat) : ∀ {m : Matcher}, m.Contained c → (m.forget n).Contained c := by
  induction n with
  | zero => exact id
  | succ n ih => exact fun h => ih h.forgetOldest

theorem Contained.record (h : m.Contained c) (e : Entry) : (m.record e).Contained c :=
  Contained.forget _ ⟨h.compiled, h.position⟩

theorem Contained.read (hc : c.Regular) (h : m.Contained c) (bytes : Bytes) : (m.read bytes).2.Contained c := by
  have advanced := h.advance hc bytes
  rw [Matcher.read]
  split
  · rename_i hread
    rw [hread] at advanced
    exact advanced.record _
  · rename_i hread
    rw [hread] at advanced
    exact advanced

theorem Contained.acceptBytes (hc : c.Regular) (h : m.Contained c) (bytes : Bytes) :
    (m.acceptBytes bytes).2.Contained c := by
  rw [Matcher.acceptBytes]
  split
  · exact h
  · exact h.read hc bytes

theorem Contained.acceptToken (hc : c.Regular) (h : m.Contained c) (id : Nat) : (m.acceptToken id).2.Contained c := by
  have stopped : Contained c { m with stopped := true } := ⟨h.compiled, h.position⟩
  simp only [Matcher.acceptToken]
  split_ifs
  · exact h
  · exact stopped.record .stop
  · exact h
  · exact h
  · exact h.read hc _

theorem Contained.undo (h : m.Contained c) (e : Entry) : (m.undo e).Contained c := by
  unfold Matcher.undo
  split
  · exact ⟨h.compiled, h.position⟩
  · rename_i hm
    have sound := h.position
    rw [hm] at sound
    exact ⟨h.compiled, fun s' hs' => sound s' (List.mem_cons_of_mem _ hs')⟩
  · exact h
  · rename_i hm
    exact h.moved hm (Visits.here.drop _)

theorem Contained.undoLast (n : Nat) : ∀ {m : Matcher}, m.Contained c →
    (m.undoLast n).Contained c := by
  induction n with
  | zero => exact id
  | succ n ih =>
    intro m h
    rw [Matcher.undoLast]
    split
    · exact h
    · rename_i e rest _
      exact ih (Contained.undo (m := { m with history := rest }) ⟨h.compiled, h.position⟩ e)

theorem Contained.overwrite (h : m.Contained c) (row : Bitmask) :
    (m.overwrite row).2.Contained c := by
  obtain rfl := h.compiled
  simp only [Matcher.overwrite]
  split
  · exact h
  · split
    · exact h
    · rename_i hm
      exact h.moved hm (visits_tryTokens _ _)

theorem Contained.findForced (h : m.Contained c) : m.findForced.2.Contained c := by
  obtain rfl := h.compiled
  rw [Matcher.findForced]
  split
  · exact h
  · split
    · exact h
    · rename_i hm
      exact h.moved hm ((Visits.here.follow maxForced).drop _)

/-- Each call leads to where lookups stay inside. -/
theorem Contained.call (hc : c.Regular) (h : m.Contained c) (call : Call) : (m.call call).2.Contained c := by
  cases call with
  | accept input =>
    cases input with
    | token id => exact h.acceptToken hc id
    | bytes bytes => exact h.acceptBytes hc bytes
    | text text => exact h.acceptBytes hc _
  | fill buffer batch =>
    simp only [Matcher.call, Matcher.fill]
    split
    · exact h
    · exact h.overwrite _
  | jump => exact h.findForced
  | rollback n =>
    simp only [Matcher.call, Matcher.rollback]
    split
    · exact h
    · exact h.undoLast n
  | reset =>
    obtain rfl := h.compiled
    exact ⟨rfl, visited_startPosition hc _⟩

/-- All calls lead to where lookups stay inside. -/
theorem Contained.run (hc : c.Regular) (calls : List Call) : ∀ {m : Matcher} {log : Log}, m.Contained c →
    (m.run log calls).1.Contained c := by
  induction calls with
  | nil => exact id
  | cons call calls ih => exact fun h => ih (h.call hc call)

end Matcher

/-! ## Compiled grammars for a vocabulary -/

namespace Compiled

variable {v : Vocabulary} {c : Compiled}

/-- A compiled grammar was compiled from a valid grammar. -/
def IsCompiled (v : Vocabulary) (c : Compiled) : Prop := ∃ g, g.Valid ∧ compile g v = .ok c

/-- A compiled grammar was read from some payload, by some hash. -/
def IsRead (v : Vocabulary) (c : Compiled) : Prop := ∃ hash text, deserialize hash text v = .ok c

/-- Lookups stay inside, whether a compiled grammar was compiled or read. -/
theorem sound_of_made (hv : v.Regular) (hc : c.IsCompiled v ∨ c.IsRead v) : c.Sound ∧ c.vocabulary = v := by
  rcases hc with ⟨g, hg, h⟩ | ⟨hash, text, h⟩
  · exact ⟨sound_of_compile hg hv h, (compile_spec hg h).2.2.2⟩
  · exact sound_of_deserialize h

/-- The tables lead nowhere outside themselves, whatever the vocabulary. -/
theorem regular_of_made (hc : c.IsCompiled v ∨ c.IsRead v) : c.Regular := by
  rcases hc with ⟨g, hg, h⟩ | ⟨hash, text, h⟩
  · exact (compile_spec hg h).1
  · exact (sound_of_deserialize h).1.regular

/-- What was compiled accepts tokens of the vocabulary only. -/
theorem IsCompiled.lt_size (hv : v.Regular) (hc : c.IsCompiled v) {r : RuleId} {s : StateId}
    (hr : r < c.tables.size) (hs : s < (c.table r).size) {id : Nat} (hid : (c.mask r s).accepted.Holds id) :
    id < v.size := by
  obtain ⟨g, hg, h⟩ := hc
  obtain ⟨sound, rfl⟩ := sound_of_made hv (Or.inl ⟨g, hg, h⟩)
  rw [← (sound.suits r hr s hs).allows_applyTo, mask_eq h hr hs,
    Table.allows_maskOf (sound.regular.table r hr) hv s (Bitmask.size_zero _), Bitmask.allows_zero] at hid
  exact hv.lt_size (hid.resolve_right Bool.false_ne_true).1

/-- The grammar of the text `a`. -/
def onlyA : Grammar := ⟨#[⟨"root", 0, none⟩], #[.leaf (.literal [97])], 0⟩

/-- The vocabulary of the token `a`. -/
def justA : Vocabulary := .ofBytes ["a"] .raw 1 false [[97]] []

/-- Masks for the two states of a table, of which the first one has all bits of a word. -/
def strayBits : MaskPool := ⟨#[⟨.bits #[0xFFFFFFFF], []⟩, .empty], #[#[0, 1]]⟩

end Compiled

namespace Matcher

open Compiled
open Stack (Visits Move)

/-- How many levels the stack of a matcher has after a byte string, if a grammar compiles. -/
def levelsAfter (g : Grammar) (v : Vocabulary) (bytes : Bytes) : Option Nat := do
  let c ← (compile g v).toOption
  match ((new c .default 10).run ⟨[], 0⟩ [.accept (.bytes bytes)]).1.position with
  | .single _ _ => none
  | .stacked stack => some stack.size

section

variable {v : Vocabulary} {c : Compiled} {tokens : List String} {kind : Vocabulary.Kind} {size : Option Nat}
  {stop : Setting (List Nat)} {addsSpace : Bool}

/-- Lookups stay inside, in a compiled grammar that was compiled or read from a payload, and whatever was
asked of a matcher on it: its states and those that are queued or tried lie in the tables, and rules were
entered at levels that there are. Its stack came up by putting levels on the first one and taking levels off,
and the same moves lead the flat arrays of the first one to those of the stack. There the starts of the levels
lie in order, and what is looked up is what the stack has, also after any further moves. Rules and states have
16 bits, and levels and depths 32, until there are more levels than 32 bits can count. The tokens that a mask
accepts have their bits in a row; they are tokens of the vocabulary unless the mask holds bits and was read
from a payload. -/
theorem lookups_stay_inside (hv : Vocabulary.ofTokens tokens kind size stop addsSpace = .ok v)
    (hc : c.IsCompiled v ∨ c.IsRead v) :
    c.vocabulary = v ∧ c.Sound ∧ (∀ id ∈ v.sortedIds, id < v.size) ∧
    (∀ r < c.tables.size, ∀ s < (c.table r).size, ∀ id, (c.mask r s).accepted.Holds id →
      id / 32 < Bitmask.wordsFor v.size ∧
        (c.IsCompiled v ∨ (∃ ids, (c.mask r s).accepted = .ids ids) → id < v.size)) ∧
    ∀ o usualDepth calls, let m := ((new c o usualDepth).run ⟨[], 0⟩ calls).1
      m.compiled = c ∧ m.position.Sound c m.ceiling ∧
        (∀ n, (Stack.startStage c m.ceiling n).InRange c #[] ∧ (Stack.startStage c m.ceiling n).Fits) ∧
        ∀ stack, m.position = .stacked stack → Visits c m.ceiling (Stack.start c m.ceiling) stack ∧
          ∀ s, Visits c m.ceiling stack s → s.Sound c m.ceiling ∧ Stack.StandsFor s.flat s ∧
            (∃ moves : List Move, moves.foldl Stack.move (Stack.start c m.ceiling) = s ∧
              moves.foldl FlatStack.move (Stack.start c m.ceiling).flat = s.flat) ∧
            (∀ moves : List Move,
              Stack.StandsFor (moves.foldl FlatStack.move s.flat) (moves.foldl Stack.move s)) ∧
            (s.size < Stack.noLevel →
              (∀ l ∈ s, l.Fits) ∧ ∀ b n, (Stack.nextStage c m.ceiling s b n).Fits) := by
  have regular := Vocabulary.regular_of_ofTokens hv
  obtain ⟨sound, rfl⟩ := sound_of_made regular hc
  refine ⟨rfl, sound, fun id hid => regular.lt_size hid, fun r hr s hs id hid => ?_, ?_⟩
  · obtain ⟨hrow, hids⟩ := (sound.suits r hr s hs).holds hid
    exact ⟨hrow, fun h => h.elim (fun hc => hc.lt_size regular hr hs hid) hids⟩
  · intro o usualDepth calls m
    have contained : m.Contained c := (contained_new sound.regular o usualDepth).run sound.regular calls
    have ceiling : m.ceiling ≤ deepest := Nat.min_le_right _ _
    refine ⟨contained.compiled, contained.position.sound sound.regular, fun n => ?_, fun stack hstack => ?_⟩
    · have inRange := Stack.inRange_startStage sound.regular m.ceiling n
      have shallow := Stack.shallow_startStage sound.regular m.ceiling n
      exact ⟨inRange, Stack.Work.fits sound inRange shallow (by decide) ceiling⟩
    · have came : Visits c m.ceiling (Stack.start c m.ceiling) stack := by
        have position := contained.position
        rwa [hstack] at position
      refine ⟨came, fun s visits => ?_⟩
      have start := Stack.sound_start sound.regular m.ceiling
      have visited := (came.trans visits).sound sound.regular start
      obtain ⟨moves, hmoves⟩ := (came.trans visits).exists_moves
      have laid := Stack.flat_foldl_move moves start.standing
      exact ⟨visited, Stack.standsFor_flat s, ⟨moves, hmoves, hmoves ▸ laid.symm⟩,
        Stack.standsFor_foldl_move visited.standing, fun few => visited.fits sound few ceiling⟩

end

/-- After a byte the two levels of the stack lie in order, and their states in the tables. -/
theorem runsOfA_contained : ∃ c stack, compile runsOfA someA = .ok c ∧
    ((new c .default 10).run ⟨[], 0⟩ [.accept (.bytes [97])]).1.position = .stacked stack ∧
      stack.size = 2 ∧ stack.InRange c ∧ stack.flat.Sound := by
  have made : Vocabulary.ofTokens ["a", "aa"] .raw none .unset false = .ok someA :=
    Vocabulary.ofTokens_eq_ok.2 ⟨by decide, _, by decide +kernel, [], by decide +kernel, rfl⟩
  have two : levelsAfter runsOfA someA [97] = some 2 := by decide +kernel
  obtain ⟨c, hc, two⟩ := Option.bind_eq_some_iff.1 two
  have hc := Except.toOption_eq_some.1 hc
  obtain ⟨-, -, -, -, matchers⟩ := lookups_stay_inside made (Or.inl ⟨runsOfA, by decide, hc⟩)
  obtain ⟨-, -, -, visited⟩ := matchers .default 10 [.accept (.bytes [97])]
  split at two
  · cases two
  · rename_i stack hstack
    obtain ⟨sound, flat, -⟩ := (visited stack hstack).2 stack .here
    exact ⟨c, stack, hc, hstack, Option.some.inj two, sound.levels, flat.sound⟩

/-- A payload may set bits past the vocabulary: with the only token `a`, all bits of a word. -/
theorem strayBits_accepted : ∃ c, (∀ hash, ∃ text, deserialize hash text justA = .ok c) ∧
    ∃ r s id, r < c.tables.size ∧ s < (c.table r).size ∧ (c.mask r s).accepted.Holds id ∧
      justA.size ≤ id := by
  have sizes : (compile onlyA justA).toOption.map (fun c => c.tables.toList.map Table.size) = some [2] := by
    decide +kernel
  obtain ⟨c, hc, sizes⟩ := Option.map_eq_some_iff.1 sizes
  obtain ⟨l, ts, hl, hts, rfl⟩ := compile_eq_ok.1 (Except.toOption_eq_some.1 hc)
  have suits : ∀ i ∈ strayBits.flatPlaces, (strayBits.masks.getD i .empty).Suits justA := by
    have word : TokenMask.Suits justA ⟨.bits #[0xFFFFFFFF], []⟩ := ⟨rfl, .nil, nofun⟩
    have places : strayBits.flatPlaces = [0, 1] := rfl
    rw [places]
    exact List.forall_mem_cons.2 ⟨word, List.forall_mem_singleton.2 (TokenMask.suits_empty justA)⟩
  have made : Vocabulary.ofTokens ["a"] .raw none .unset false = .ok justA :=
    Vocabulary.ofTokens_eq_ok.2 ⟨by decide, _, by decide +kernel, [], by decide +kernel, rfl⟩
  have read : ∀ hash, deserialize hash (serialize hash ⟨onlyA, l, justA, ts, strayBits⟩) justA =
      .ok (inOrder ⟨onlyA, l, justA, ts, strayBits⟩) := fun hash =>
    deserialize_serialize_pool (by decide) (by decide) (by decide) (Vocabulary.size_sortedIds_le made) hl hts
      sizes suits
  have size : ts.size = 1 := by simpa using congrArg List.length sizes
  have states : (ts.getD 0 ⟨#[], #[], #[], #[]⟩).size = 2 := by
    have := congrArg (·[0]?) sizes
    simpa [Array.getD_eq_getD_getElem?, size] using this
  have mask : (inOrder ⟨onlyA, l, justA, ts, strayBits⟩).mask 0 0 = strayBits.maskAt 0 0 :=
    MaskPool.maskAt_renumbered sizes 0 0
  have bit : (strayBits.maskAt 0 0).accepted.Holds 1 := (by decide : Bitmask.allows #[0xFFFFFFFF] 1 = true)
  refine ⟨_, fun hash => ⟨_, read hash⟩, 0, 0, 1, ?_, ?_, mask ▸ bit, by decide⟩
  · exact (Nat.zero_lt_one.trans_eq size.symm : 0 < ts.size)
  · exact (Nat.zero_lt_two.trans_eq states.symm : 0 < (ts.getD 0 ⟨#[], #[], #[], #[]⟩).size)

end Matcher

end ConstrainedDecoding
