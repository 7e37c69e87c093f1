import ConstrainedDecoding.Proofs.Containment
import ConstrainedDecoding.Proofs.Recognition

/-!
# Paths through the tables

The tables of a compiled grammar are a network: an edge of a table reads a byte, or whatever a path
through the table of another rule reads. A stack reads a text to where it may end if and only if a
path from the start of the root rule reads the text. States that can only read further bytes need not
be queued for this: if they are, the same texts are read, and the same states wait for the next byte.
-/
namespace ConstrainedDecoding

open Letter

namespace Compiled

/-- A path from a state of a rule to one at which the rule ends, and the text that it reads. An edge of
the path reads a byte, or what a path from the start of a called rule reads. -/
inductive Path (c : Compiled) : RuleId → StateId → Bytes → Prop
  | stop {r : RuleId} {s : StateId} (accepts : (c.table r).accepts s = true) : Path c r s []
  | byte {r : RuleId} {s s' : StateId} {b : UInt8} {w : Bytes}
    (edge : (c.table r).next? s b = some s') (rest : Path c r s' w) : Path c r s (b :: w)
  | call {r r' : RuleId} {s s' : StateId} {u w : Bytes} (edge : (r', s') ∈ (c.table r).callsOf s)
    (inner : Path c r' 0 u) (rest : Path c r s' w) : Path c r s (u ++ w)

/-- What the paths from the starts of the rules read. -/
def paths (c : Compiled) : Reading := fun r => {w | c.Path r 0 w}

variable {c : Compiled} {r : RuleId} {s : StateId} {w : Bytes}

/-- The edges of a path are a word of the rule, and the text is what the word stands for. -/
theorem Path.mem_expand (path : c.Path r s w) : w ∈ expand c.network.reading (c.words r s) := by
  induction path with
  | stop accepts => exact ⟨[], accepts, by simp⟩
  | @byte r s s' b w edge rest ih =>
    obtain ⟨word, hword, hw⟩ := ih
    refine ⟨.byte b :: word, ⟨s', edge, hword⟩, ?_⟩
    rw [wordLanguage_cons]
    exact ⟨[b], rfl, w, hw, rfl⟩
  | @call r r' s s' u w edge inner rest ih₁ ih₂ =>
    obtain ⟨word, hword, hw⟩ := ih₂
    refine ⟨.call r' :: word, ⟨s', edge, hword⟩, ?_⟩
    have called : u ∈ c.network.reading r' := by
      rw [Network.reading_eq]
      exact ih₁
    rw [wordLanguage_cons]
    exact ⟨u, called, w, hw, rfl⟩

/-- A word of a rule is a path, if its calls stand for what paths read. -/
theorem path_of_word (word : List Letter) : ∀ {s : StateId} {w : Bytes}, word ∈ c.words r s →
    w ∈ wordLanguage c.paths word → c.Path r s w := by
  induction word with
  | nil =>
    intro s w accepts hw
    obtain rfl : w = [] := by simpa using hw
    exact .stop accepts
  | cons a word ih =>
    intro s w hword hw
    rw [wordLanguage_cons] at hw
    obtain ⟨u, hu, w, hw, rfl⟩ := hw
    cases a with
    | byte b =>
      obtain rfl : u = [b] := hu
      obtain ⟨s', edge, hword⟩ := hword
      exact .byte edge (ih hword hw)
    | call r' =>
      obtain ⟨s', edge, hword⟩ := hword
      exact .call edge hu (ih hword hw)

/-- The paths from the start of a rule read what the rule describes. -/
theorem path_start_iff : c.Path r 0 w ↔ w ∈ c.network.reading r := by
  constructor
  · intro path
    rw [Network.reading_eq]
    exact path.mem_expand
  · have least : c.network.reading ≤ c.paths := by
      apply Network.reading_le
      rintro r u ⟨word, hword, hu⟩
      exact path_of_word word hword hu
    exact fun h => least r h

end Compiled

namespace Stack

open Work

variable {c : Compiled} {maxDepth : Nat} {next : Stack → UInt8 → Work} {w : Bytes}

/-! ## Without the short cut -/

/-- Moves a state over a byte and queues it, whatever it can do next. -/
def Work.scanQueued (c : Compiled) (b : UInt8) (w : Work) (s : State) : Work :=
  match (c.table s.rule).next? s.state b with
  | none => w
  | some target => w.addNew { s with state := target }

/-- How the level is built that a byte leads to, if all states are queued. -/
def queuedWork (c : Compiled) (maxDepth : Nat) (stack : Stack) (b : UInt8) : Work :=
  runAll c maxDepth stack ((current stack).foldl (scanQueued c b) empty)

/-- Reads a byte string, and says whether all of it can be read. If not, the stack is as it was. -/
def advanceBy (next : Stack → UInt8 → Work) (stack : Stack) (bytes : Bytes) : Bool × Stack :=
  match bytes.foldlM (fun stack b => (nextBy? next stack b).map (Array.push stack)) stack with
  | some ahead => (true, ahead)
  | none => (false, stack)

/-- Levels are put on the first one as long as a parse survives. -/
theorem foldlM_nextBy? {stack : Stack} :
    w.foldlM (fun stack b => (nextBy? next stack b).map (Array.push stack)) (start c maxDepth) = some stack ↔
      SurvivesBy c maxDepth next w ∧ stack = levelsBy c maxDepth next w := by
  induction w using List.reverseRecOn generalizing stack with
  | nil => simp [levelsBy, eq_comm]
  | append_singleton w b ih =>
    rw [List.foldlM_append, survivesBy_append, levelsBy_append, workBy_append]
    simp only [List.foldlM_cons, List.foldlM_nil, bind_pure, Option.bind_eq_bind, Option.bind_eq_some_iff,
      Option.map_eq_some_iff, nextBy?_eq_some, ih]
    constructor
    · rintro ⟨_, ⟨survives, rfl⟩, _, ⟨alive, rfl⟩, rfl⟩
      exact ⟨⟨survives, alive⟩, rfl⟩
    · rintro ⟨⟨survives, alive⟩, rfl⟩
      exact ⟨_, ⟨survives, rfl⟩, _, ⟨alive, rfl⟩, rfl⟩

/-- From the first level a text is read if a parse survives each of its bytes. -/
theorem advanceBy_start (c : Compiled) (maxDepth : Nat) (next : Stack → UInt8 → Work) (w : Bytes) :
    SurvivesBy c maxDepth next w ∧
      advanceBy next (start c maxDepth) w = (true, levelsBy c maxDepth next w) ∨
    ¬ SurvivesBy c maxDepth next w ∧
      advanceBy next (start c maxDepth) w = (false, start c maxDepth) := by
  rw [advanceBy]
  cases h : w.foldlM (fun stack b => (nextBy? next stack b).map (Array.push stack)) (start c maxDepth) with
  | some ahead =>
    obtain ⟨survives, rfl⟩ := foldlM_nextBy?.1 h
    exact Or.inl ⟨survives, rfl⟩
  | none =>
    refine Or.inr ⟨?_, rfl⟩
    intro survives
    rw [foldlM_nextBy?.2 ⟨survives, rfl⟩] at h
    cases h

/-- Reading with the short cut is reading with next levels built with the short cut. -/
theorem advance_start_eq (w : Bytes) :
    advance c maxDepth (start c maxDepth) w = advanceBy (nextWork c maxDepth) (start c maxDepth) w := by
  rcases advance_levels c maxDepth [] w with ⟨survives, h⟩ | ⟨dies, h⟩
  · rcases advanceBy_start c maxDepth (nextWork c maxDepth) w with ⟨-, h'⟩ | ⟨dies, -⟩
    · exact h.trans h'.symm
    · exact absurd survives dies
  · rcases advanceBy_start c maxDepth (nextWork c maxDepth) w with ⟨survives, -⟩ | ⟨-, h'⟩
    · exact absurd survives dies
    · exact h.trans h'.symm

/-- What a byte leads to may be queued as well if it can only read further bytes. -/
theorem moves_scanQueued (c : Compiled) (maxDepth : Nat) (stack : Stack) (b : UInt8) :
    Moves c maxDepth stack b (scanQueued c b) := by
  intro w s hs
  cases ht : (c.table s.rule).next? s.state b with
  | none => simp [scanQueued, ht, Relation.ReflTransGen.refl]
  | some t =>
    have eq : scanQueued c b w s = w.addNew { s with state := t } := by simp only [scanQueued, ht]
    rw [eq]
    refine ⟨changes_addNew ?_, returns_addNew w _, ?_⟩
    · intro new
      exact .seed ⟨s, hs, t, ht, rfl⟩ new
    · intro t' ht'
      obtain rfl : t = t' := Option.some.inj ht'
      exact key_mem_addNew w _

theorem builds_queuedWork (hc : c.Regular) : Builds c maxDepth (queuedWork c maxDepth) := by
  intro stack b h
  exact built_of_moves hc h (moves_scanQueued c maxDepth stack b)

/-- Two ways to build levels read the same texts, and lead to the same states, if no rule is left out. -/
theorem advanceBy_same (hc : c.Regular) {next' : Stack → UInt8 → Work} (builds : Builds c maxDepth next)
    (builds' : Builds c maxDepth next') (hdepth : c.tables.size * (w.length + 1) < maxDepth) :
    let ahead := advanceBy next (start c maxDepth) w
    let ahead' := advanceBy next' (start c maxDepth) w
    ahead.1 = ahead'.1 ∧ ahead.2.mayEnd = ahead'.2.mayEnd ∧
      ∀ k, (∃ s ∈ ahead.2.current, s.key = k) ↔ ∃ s ∈ ahead'.2.current, s.key = k := by
  intro ahead ahead'
  have uncut := uncut_of_deep hc builds hdepth
  have uncut' := uncut_of_deep hc builds' hdepth
  have same : SurvivesBy c maxDepth next w ↔ SurvivesBy c maxDepth next' w := by
    apply forall₂_congr
    intro p hp
    rw [alive_iff hc builds uncut hp, alive_iff hc builds' uncut' hp]
  have ends : (workBy c maxDepth next w).ends = (workBy c maxDepth next' w).ends := by
    rw [← List.take_length (l := w), Bool.eq_iff_iff, ends_iff hc builds uncut le_rfl,
      ends_iff hc builds' uncut' le_rfl]
  have scannable : ∀ k, (∃ s ∈ (workBy c maxDepth next w).scannable, s.key = k) ↔
      ∃ s ∈ (workBy c maxDepth next' w).scannable, s.key = k := by
    intro k
    rw [← List.take_length (l := w), exists_scannable_iff hc builds uncut le_rfl,
      exists_scannable_iff hc builds' uncut' le_rfl]
  rcases advanceBy_start c maxDepth next w with ⟨survives, h⟩ | ⟨dies, h⟩
  · rcases advanceBy_start c maxDepth next' w with ⟨-, h'⟩ | ⟨dies, -⟩
    · simp only [ahead, ahead', h, h', mayEnd_levelsBy, current_levelsBy]
      exact ⟨trivial, ends, scannable⟩
    · exact absurd (same.1 survives) dies
  · rcases advanceBy_start c maxDepth next' w with ⟨survives, -⟩ | ⟨-, h'⟩
    · exact absurd (same.2 survives) dies
    · simp only [ahead, ahead', h, h']
      exact ⟨trivial, trivial, fun _ => trivial⟩

/-- A stack reads a text to where it may end if and only if a path from the start of the root rule reads
the text, if rules may be nested as deeply as there are rules for each level. If also those states are
queued that can only read further bytes, the outcome is the same, and so are the states from which the
next byte can be read. -/
theorem advance_iff_path {v : Vocabulary} (hc : c.IsCompiled v ∨ c.IsRead v)
    (hdepth : c.tables.size * (w.length + 1) < maxDepth) :
    let ahead := advance c maxDepth (start c maxDepth) w
    let queued := advanceBy (queuedWork c maxDepth) (start c maxDepth) w
    (ahead.1 = true ∧ ahead.2.mayEnd = true ↔ c.Path c.root 0 w) ∧
      queued.1 = ahead.1 ∧ queued.2.mayEnd = ahead.2.mayEnd ∧
      ∀ k, (∃ s ∈ queued.2.current, s.key = k) ↔ ∃ s ∈ ahead.2.current, s.key = k := by
  intro ahead queued
  have regular := Compiled.regular_of_made hc
  constructor
  · rw [Compiled.path_start_iff, ← advance_start_iff regular hdepth]
    constructor
    · rintro ⟨done, ends⟩
      exact ⟨ahead.2, Prod.ext done rfl, ends⟩
    · rintro ⟨stack, hread, ends⟩
      obtain rfl : ahead.2 = stack := congrArg Prod.snd hread
      exact ⟨congrArg Prod.fst hread, ends⟩
  · have same : ahead = advanceBy (nextWork c maxDepth) (start c maxDepth) w := advance_start_eq w
    rw [same]
    exact advanceBy_same regular (builds_queuedWork regular) (builds_nextWork regular) hdepth

/-- `root ::= opt opt "x"` and `opt ::= "y" opt | ""`, so that `opt` is called again after it has ended
without reading anything. -/
def optTwice : Grammar where
  rules := #[⟨"root", 3, none⟩, ⟨"opt", 8, none⟩]
  exprs := #[.leaf (.reference 1), .leaf (.reference 1), .leaf (.literal [120]), .sequence [0, 1, 2],
    .leaf (.literal [121]), .leaf (.reference 1), .sequence [4, 5], .leaf .empty, .choice [6, 7]]
  root := 0

theorem valid_optTwice : optTwice.Valid := by decide

/-- How many tables there are, and whether a text can be read and may end then. -/
def outcomeOf (c : Compiled) (maxDepth : Nat) (w : Bytes) : Nat × Bool × Bool :=
  let ahead := advance c maxDepth (start c maxDepth) w
  (c.tables.size, ahead.1, ahead.2.mayEnd)

/-- A path reads `yyx`, and the text is also read if all states are queued. -/
theorem path_optTwice : ∃ c, Compiled.compile optTwice Compiled.justA = .ok c ∧
    c.tables.size * (([121, 121, 120] : Bytes).length + 1) < 10 ∧ c.Path c.root 0 [121, 121, 120] ∧
    let queued := advanceBy (queuedWork c 10) (start c 10) [121, 121, 120]
    queued.1 = true ∧ queued.2.mayEnd = true := by
  have reads : (Compiled.compile optTwice Compiled.justA).toOption.map
      (outcomeOf · 10 [121, 121, 120]) = some (2, true, true) := by decide +kernel
  obtain ⟨c, hc, reads⟩ := Option.map_eq_some_iff.1 reads
  have hc := Except.toOption_eq_some.1 hc
  obtain ⟨size, read, ends⟩ : c.tables.size = 2 ∧
      (advance c 10 (start c 10) [121, 121, 120]).1 = true ∧
      (advance c 10 (start c 10) [121, 121, 120]).2.mayEnd = true := by
    simpa only [outcomeOf, Prod.mk.injEq] using reads
  have deep : c.tables.size * (([121, 121, 120] : Bytes).length + 1) < 10 := by
    rw [size]
    decide
  obtain ⟨path, same, ends', -⟩ := advance_iff_path (Or.inl ⟨_, valid_optTwice, hc⟩) deep
  exact ⟨c, hc, deep, path.1 ⟨read, ends⟩, same.trans read, ends'.trans ends⟩

end Stack

end ConstrainedDecoding
