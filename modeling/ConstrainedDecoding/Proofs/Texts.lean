import ConstrainedDecoding.Proofs.Growth
import ConstrainedDecoding.Proofs.Levels

/-!
# The levels of a text

For every text there is a stack of levels, each built on those before it, whether or not a parse
survives all bytes. What a stack reads are the texts all of whose levels let a parse survive.
-/
namespace ConstrainedDecoding.Stack

open Work

variable {c : Compiled} {maxDepth : Nat}

/-- The state at the start of a text. -/
def rootState (c : Compiled) : State := ⟨c.root, 0, none, 0⟩

/-- A byte leads to a state from one of the current states. -/
def Next (c : Compiled) (stack : Stack) (b : UInt8) (s' : State) : Prop :=
  ∃ s ∈ stack.current, ∃ t, (c.table s.rule).next? s.state b = some t ∧ s' = { s with state := t }

/-- How the first level is built. -/
def startWork (c : Compiled) (maxDepth : Nat) : Work :=
  runAll c maxDepth #[] (empty.add (rootState c))

/-- How the level is built that a byte leads to. -/
def nextWork (c : Compiled) (maxDepth : Nat) (stack : Stack) (b : UInt8) : Work :=
  runAll c maxDepth stack ((current stack).foldl (scan c b) empty)

/-- A parse survives at a level. -/
def Work.Alive (w : Work) : Prop := w.scannable ≠ #[] ∨ w.ends = true

/-- The level that a byte leads to if next levels are built in a given way, unless no parse survives. -/
def nextBy? (next : Stack → UInt8 → Work) (stack : Stack) (b : UInt8) : Option Level :=
  let l := (next stack b).level
  if l.scannable.isEmpty && ! l.ends then none else some l

theorem nextBy?_eq_some {next : Stack → UInt8 → Work} {stack : Stack} {b : UInt8} {l : Level} :
    nextBy? next stack b = some l ↔ (next stack b).Alive ∧ l = (next stack b).level := by
  simp only [nextBy?, Work.Alive, level]
  obtain ⟨queue, seen, scannable, returns, finished, ends⟩ := next stack b
  by_cases h : scannable = #[] <;> cases ends <;> simp only [h] <;> simp [eq_comm (b := l)]

/-- A byte can be read if a parse survives it. -/
theorem next?_eq_some {stack : Stack} {b : UInt8} {l : Level} :
    next? c maxDepth stack b = some l ↔
      (nextWork c maxDepth stack b).Alive ∧ l = (nextWork c maxDepth stack b).level :=
  @nextBy?_eq_some (nextWork c maxDepth) _ _ _

/-! ## The first states of a level -/

/-- A way to move a state over a byte: what the byte leads to is met, and nothing is noted that waits. -/
def Moves (c : Compiled) (maxDepth : Nat) (stack : Stack) (b : UInt8) (move : Work → State → Work) : Prop :=
  ∀ w : Work, ∀ s ∈ stack.current, Changes c maxDepth stack (Next c stack b) w (move w s) ∧
    (move w s).returns = w.returns ∧ ∀ t, (c.table s.rule).next? s.state b = some t →
      State.key { s with state := t } ∈ (move w s).seen

/-- Moving states over a byte. -/
private theorem moves_spec {b : UInt8} {stack : Stack} {move : Work → State → Work}
    (moves : Moves c maxDepth stack b move) (xs : List State) (hxs : ∀ s ∈ xs, s ∈ stack.current) :
    ∀ w : Work, Changes c maxDepth stack (Next c stack b) w (xs.foldl move w) ∧
      (xs.foldl move w).returns = w.returns ∧
      ∀ s ∈ xs, ∀ t, (c.table s.rule).next? s.state b = some t →
        State.key { s with state := t } ∈ (xs.foldl move w).seen := by
  induction xs with
  | nil => exact fun w => ⟨.refl, rfl, by simp⟩
  | cons s xs ih =>
    intro w
    obtain ⟨change, returns, seen⟩ := moves w s (hxs s List.mem_cons_self)
    obtain ⟨changes, returns', all⟩ :=
      ih (fun s' hs' => hxs s' (List.mem_cons_of_mem _ hs')) (move w s)
    refine ⟨change.trans changes, returns'.trans returns, ?_⟩
    intro s' hs' t ht
    rcases List.mem_cons.1 hs' with rfl | hs'
    · exact (Changes.within changes).seen _ (seen t ht)
    · exact all s' hs' t ht

/-- What a byte leads to is queued, or can only read further bytes and need not be queued. -/
theorem moves_scan (c : Compiled) (maxDepth : Nat) (stack : Stack) (b : UInt8) :
    Moves c maxDepth stack b (scan c b) := by
  intro w s hs
  cases ht : (c.table s.rule).next? s.state b with
  | none => simp [scan, ht, Relation.ReflTransGen.refl]
  | some t =>
    set next : State := { s with state := t } with hnext
    have seed : Next c stack b next := ⟨s, hs, t, ht, rfl⟩
    have eq : scan c b w s = if w.isNew next then
        if (c.table next.rule).scansAt next.state && ! (c.table next.rule).mayLeave next.state
        then { w with scannable := w.scannable.push next, seen := w.seen.insert next.key }
        else w.add next else w := by
      simp only [scan, ht, hnext]
    suffices Changes c maxDepth stack (Next c stack b) w (scan c b w s) ∧
        (scan c b w s).returns = w.returns ∧ next.key ∈ (scan c b w s).seen by
      refine ⟨this.1, this.2.1, fun t' ht' => ?_⟩
      obtain rfl : t = t' := by simpa using ht'
      exact this.2.2
    rw [eq]
    split
    · rename_i new
      split
      · rename_i stays
        simp only [Bool.and_eq_true, Bool.not_eq_true'] at stays
        exact ⟨.single (.pass seed (isNew_iff.1 new) stays.1 stays.2), rfl, by simp⟩
      · exact ⟨.single (.seed seed (isNew_iff.1 new)), rfl, by simp [add]⟩
    · rename_i old
      exact ⟨.refl, rfl, not_not.1 fun new => old (isNew_iff.2 new)⟩

theorem before_rootState (hc : c.Regular) : (rootState c).Before c 0 :=
  ⟨hc.root_lt, (hc.table _ hc.root_lt).pos, by simp [rootState]⟩

/-- The first level is begun with the start of the root rule. -/
theorem underway_root (c : Compiled) (maxDepth : Nat) :
    Underway c maxDepth #[] (· = rootState c) (empty.add (rootState c)) where
  changes := .single (.seed rfl (by simp [empty]))
  linked := by simp [Linked, empty, add]

/-- The first level is built from the start of the root rule. -/
theorem startWork_spec (hc : c.Regular) :
    Built c maxDepth #[] (· = rootState c) (startWork c maxDepth) :=
  runAll_spec hc (fun q l hl => by simp at hl) (fun s hs => hs ▸ before_rootState hc)
    (underway_root c maxDepth) (fun s hs => by simp [hs, add])

theorem before_of_current {stack : Stack} (h : InRange c stack) {s : State}
    (hs : s ∈ stack.current) : s.Before c stack.size := by
  unfold current at hs
  split at hs
  · rename_i l hl
    rw [Array.back?_eq_getElem?] at hl
    have hlt := (Array.getElem?_eq_some_iff.1 hl).1
    have := (h _ l hl).scannable s hs
    rwa [Nat.sub_add_cancel (by omega)] at this
  · simp at hs

theorem Next.before (hc : c.Regular) {stack : Stack} (h : InRange c stack) {b : UInt8} {s : State}
    (hs : Next c stack b s) : s.Before c stack.size := by
  obtain ⟨s, hs, t, ht, rfl⟩ := hs
  have before := before_of_current h hs
  exact { before with state_lt := (hc.table _ before.rule_lt).next_lt _ _ _ ht }

/-- The next level is begun with what a byte leads to. -/
theorem underway_moves {stack : Stack} {b : UInt8} {move : Work → State → Work}
    (moves : Moves c maxDepth stack b move) :
    Underway c maxDepth stack (Next c stack b) (stack.current.foldl move empty) ∧
      ∀ s', Next c stack b s' → s'.key ∈ (stack.current.foldl move empty).seen := by
  obtain ⟨changes, returns, seen⟩ :=
    moves_spec moves stack.current.toList (fun s hs => Array.mem_toList_iff.1 hs) empty
  rw [← Array.foldl_toList]
  refine ⟨⟨changes, fun x hx => ?_⟩, fun s' hs' => ?_⟩
  · rw [returns] at hx
    simp [empty] at hx
  · obtain ⟨s, hs, t, ht, rfl⟩ := hs'
    exact seen s (Array.mem_toList_iff.2 hs) t ht

theorem underway_scans (c : Compiled) (maxDepth : Nat) (stack : Stack) (b : UInt8) :
    Underway c maxDepth stack (Next c stack b) ((current stack).foldl (scan c b) empty) ∧
      ∀ s', Next c stack b s' → s'.key ∈ ((current stack).foldl (scan c b) empty).seen :=
  underway_moves (moves_scan c maxDepth stack b)

/-- From what a byte leads to a level is built. -/
theorem built_of_moves (hc : c.Regular) {stack : Stack} (h : InRange c stack) {b : UInt8}
    {move : Work → State → Work} (moves : Moves c maxDepth stack b move) :
    Built c maxDepth stack (Next c stack b)
      (runAll c maxDepth stack (stack.current.foldl move empty)) :=
  runAll_spec hc h (fun _ hs => hs.before hc h) (underway_moves moves).1 (underway_moves moves).2

/-- The next level is built from what a byte leads to. -/
theorem nextWork_spec (hc : c.Regular) {stack : Stack} (h : InRange c stack) (b : UInt8) :
    Built c maxDepth stack (Next c stack b) (nextWork c maxDepth stack b) :=
  built_of_moves hc h (moves_scan c maxDepth stack b)

/-! ## Levels that are built in a given way -/

section

variable (c : Compiled) (maxDepth : Nat) (next : Stack → UInt8 → Work)

/-- A next level is built from what a byte leads to, whatever the stack. -/
def Builds : Prop :=
  ∀ (stack : Stack) (b : UInt8), InRange c stack → Built c maxDepth stack (Next c stack b) (next stack b)

/-- The stack for a text if next levels are built in a given way, whether or not a parse survives. -/
def levelsBy (w : Bytes) : Stack :=
  w.foldl (fun stack b => stack.push (next stack b).level) (start c maxDepth)

/-- How the last level for a text is built. -/
def workBy (w : Bytes) : Work :=
  match w.getLast? with
  | none => startWork c maxDepth
  | some b => next (levelsBy c maxDepth next w.dropLast) b

/-- A parse survives each byte of a text. -/
def SurvivesBy (w : Bytes) : Prop :=
  ∀ p < w.length, (workBy c maxDepth next (w.take (p + 1))).Alive

/-- The states from which the last level for a text is built. -/
def SeedsBy (w : Bytes) (s : State) : Prop :=
  match w.getLast? with
  | none => s = rootState c
  | some b => Next c (levelsBy c maxDepth next w.dropLast) b s

/-- The levels below the last one. -/
def belowBy (w : Bytes) : Stack := (levelsBy c maxDepth next w).pop

end

section

variable {next : Stack → UInt8 → Work}

@[simp] theorem workBy_append (w : Bytes) (b : UInt8) :
    workBy c maxDepth next (w ++ [b]) = next (levelsBy c maxDepth next w) b := by
  simp [workBy]

@[simp] theorem survivesBy_nil : SurvivesBy c maxDepth next [] := nofun

theorem survivesBy_append (w : Bytes) (b : UInt8) : SurvivesBy c maxDepth next (w ++ [b]) ↔
    SurvivesBy c maxDepth next w ∧ (next (levelsBy c maxDepth next w) b).Alive := by
  constructor
  · intro survives
    constructor
    · intro p hp
      have alive := survives p (by rw [List.length_append]; omega)
      rwa [List.take_append_of_le_length hp] at alive
    · have alive := survives w.length (by simp)
      rwa [List.take_of_length_le (by simp), workBy_append] at alive
  · intro ⟨survives, alive⟩ p hp
    rw [List.length_append, List.length_singleton] at hp
    rcases Nat.lt_succ_iff_lt_or_eq.1 hp with hp | rfl
    · rw [List.take_append_of_le_length hp]
      exact survives p hp
    · rwa [List.take_of_length_le (by simp), workBy_append]

@[simp] theorem seedsBy_append (w : Bytes) (b : UInt8) :
    SeedsBy c maxDepth next (w ++ [b]) = Next c (levelsBy c maxDepth next w) b := by
  funext s
  simp [SeedsBy]

theorem levelsBy_append (w : Bytes) (b : UInt8) : levelsBy c maxDepth next (w ++ [b]) =
    (levelsBy c maxDepth next w).push (workBy c maxDepth next (w ++ [b])).level := by
  simp [levelsBy]

@[simp] theorem size_levelsBy (w : Bytes) : (levelsBy c maxDepth next w).size = w.length + 1 := by
  induction w using List.reverseRecOn with
  | nil => rfl
  | append_singleton w b ih => simp [levelsBy_append, ih]

/-- Each level for a text is built for the text up to there. -/
theorem getElem?_levelsBy (w : Bytes) {p : Nat} (hp : p ≤ w.length) :
    (levelsBy c maxDepth next w)[p]? = some (workBy c maxDepth next (w.take p)).level := by
  induction w using List.reverseRecOn with
  | nil =>
    obtain rfl : p = 0 := by simpa using hp
    rfl
  | append_singleton w b ih =>
    rw [levelsBy_append, Array.getElem?_push, size_levelsBy]
    split
    · rename_i h
      rw [h, List.take_of_length_le (by simp)]
    · have hp : p ≤ w.length := by simp at hp; omega
      rw [ih hp, List.take_append_of_le_length hp]

@[simp] theorem back?_levelsBy (w : Bytes) :
    (levelsBy c maxDepth next w).back? = some (workBy c maxDepth next w).level := by
  rw [Array.back?_eq_getElem?, size_levelsBy, Nat.add_sub_cancel, getElem?_levelsBy w le_rfl,
    List.take_length]

@[simp] theorem current_levelsBy (w : Bytes) :
    (levelsBy c maxDepth next w).current = (workBy c maxDepth next w).scannable := by
  simp [current, level]

@[simp] theorem mayEnd_levelsBy (w : Bytes) :
    (levelsBy c maxDepth next w).mayEnd = (workBy c maxDepth next w).ends := by
  simp [mayEnd, level]

@[simp] theorem size_belowBy (w : Bytes) : (belowBy c maxDepth next w).size = w.length := by
  simp [belowBy]

theorem getElem?_belowBy (w : Bytes) {p : Nat} (hp : p < w.length) :
    (belowBy c maxDepth next w)[p]? = some (workBy c maxDepth next (w.take p)).level := by
  rw [belowBy, Array.getElem?_pop, size_levelsBy, if_pos (by simpa using hp), getElem?_levelsBy w hp.le]

@[simp] theorem belowBy_append (w : Bytes) (b : UInt8) :
    belowBy c maxDepth next (w ++ [b]) = levelsBy c maxDepth next w := by
  simp [belowBy, levelsBy_append]

private theorem push_belowBy (w : Bytes) :
    (belowBy c maxDepth next w).push (workBy c maxDepth next w).level = levelsBy c maxDepth next w := by
  induction w using List.reverseRecOn with
  | nil => rfl
  | append_singleton w b => rw [belowBy_append, levelsBy_append]

private theorem levelsBy_spec (hc : c.Regular) (builds : Builds c maxDepth next) (w : Bytes) :
    InRange c (levelsBy c maxDepth next w) ∧ Built c maxDepth (belowBy c maxDepth next w)
      (SeedsBy c maxDepth next w) (workBy c maxDepth next w) := by
  induction w using List.reverseRecOn with
  | nil =>
    have built : Built c maxDepth (belowBy c maxDepth next []) (SeedsBy c maxDepth next [])
        (workBy c maxDepth next []) := startWork_spec hc
    have nothing : belowBy c maxDepth next [] = #[] := rfl
    exact ⟨push_belowBy (c := c) [] ▸ built.inRange hc fun q l hl => by simp [nothing] at hl, built⟩
  | append_singleton w b ih =>
    have built : Built c maxDepth (belowBy c maxDepth next (w ++ [b]))
        (SeedsBy c maxDepth next (w ++ [b])) (workBy c maxDepth next (w ++ [b])) := by
      simpa only [belowBy_append, workBy_append, seedsBy_append] using builds _ b ih.1
    refine ⟨push_belowBy (c := c) (w ++ [b]) ▸ built.inRange hc ?_, built⟩
    rw [belowBy_append]
    exact ih.1

theorem inRange_levelsBy (hc : c.Regular) (builds : Builds c maxDepth next) (w : Bytes) :
    InRange c (levelsBy c maxDepth next w) :=
  (levelsBy_spec hc builds w).1

/-- The last level for a text is built from what the last byte leads to. -/
theorem workBy_spec (hc : c.Regular) (builds : Builds c maxDepth next) (w : Bytes) :
    Built c maxDepth (belowBy c maxDepth next w) (SeedsBy c maxDepth next w)
      (workBy c maxDepth next w) :=
  (levelsBy_spec hc builds w).2

theorem inRange_belowBy (hc : c.Regular) (builds : Builds c maxDepth next) (w : Bytes) :
    InRange c (belowBy c maxDepth next w) := by
  intro q l hl
  rw [belowBy, Array.getElem?_pop] at hl
  split at hl
  · exact inRange_levelsBy hc builds w q l hl
  · cases hl

theorem SeedsBy.before (hc : c.Regular) (builds : Builds c maxDepth next) {w : Bytes} {s : State}
    (hs : SeedsBy c maxDepth next w s) : s.Before c w.length := by
  cases w using List.reverseRecOn with
  | nil =>
    obtain rfl : s = rootState c := hs
    exact before_rootState hc
  | append_singleton w b =>
    rw [seedsBy_append] at hs
    simpa using hs.before hc (inRange_levelsBy hc builds w)

end

/-! ## Texts -/

/-- The stack for a text, as it is built whether or not a parse survives. -/
def levels (c : Compiled) (maxDepth : Nat) (w : Bytes) : Stack :=
  w.foldl (fun stack b => stack.push (nextWork c maxDepth stack b).level) (start c maxDepth)

/-- How the last level for a text is built. -/
def workOf (c : Compiled) (maxDepth : Nat) (w : Bytes) : Work :=
  match w.getLast? with
  | none => startWork c maxDepth
  | some b => nextWork c maxDepth (levels c maxDepth w.dropLast) b

/-- The states from which the last level for a text is built. -/
def Seeds (c : Compiled) (maxDepth : Nat) (w : Bytes) (s : State) : Prop :=
  match w.getLast? with
  | none => s = rootState c
  | some b => Next c (levels c maxDepth w.dropLast) b s

/-- The levels below the last one. -/
def below (c : Compiled) (maxDepth : Nat) (w : Bytes) : Stack := (levels c maxDepth w).pop

theorem builds_nextWork (hc : c.Regular) : Builds c maxDepth (nextWork c maxDepth) :=
  fun _ b h => nextWork_spec hc h b

@[simp] theorem workOf_append (w : Bytes) (b : UInt8) :
    workOf c maxDepth (w ++ [b]) = nextWork c maxDepth (levels c maxDepth w) b :=
  workBy_append w b

@[simp] theorem seeds_append (w : Bytes) (b : UInt8) :
    Seeds c maxDepth (w ++ [b]) = Next c (levels c maxDepth w) b :=
  seedsBy_append w b

theorem levels_append (w : Bytes) (b : UInt8) : levels c maxDepth (w ++ [b]) =
    (levels c maxDepth w).push (workOf c maxDepth (w ++ [b])).level :=
  levelsBy_append w b

@[simp] theorem size_levels (w : Bytes) : (levels c maxDepth w).size = w.length + 1 :=
  size_levelsBy w

@[simp] theorem current_levels (w : Bytes) :
    (levels c maxDepth w).current = (workOf c maxDepth w).scannable :=
  current_levelsBy w

@[simp] theorem mayEnd_levels (w : Bytes) :
    (levels c maxDepth w).mayEnd = (workOf c maxDepth w).ends :=
  mayEnd_levelsBy w

theorem inRange_levels (hc : c.Regular) (w : Bytes) : InRange c (levels c maxDepth w) :=
  inRange_levelsBy hc (builds_nextWork hc) w

/-- The last level for a text is built from what the last byte leads to. -/
theorem workOf_spec (hc : c.Regular) (w : Bytes) :
    Built c maxDepth (below c maxDepth w) (Seeds c maxDepth w) (workOf c maxDepth w) :=
  workBy_spec hc (builds_nextWork hc) w

/-- All current states can read some byte. -/
theorem scans_of_current (hc : c.Regular) {w : Bytes} {s : State} (hs : s ∈ (levels c maxDepth w).current) :
    (c.table s.rule).scansAt s.state = true := by
  rw [current_levels] at hs
  exact ((workOf_spec hc w).founded.scans s hs).2

/-! ## Reading -/

/-- The stack for a text with more bytes after it has more levels on top. -/
theorem exists_levels_append (w bs : Bytes) : ∃ more : Array Level,
    levels c maxDepth (w ++ bs) = levels c maxDepth w ++ more ∧ more.size = bs.length := by
  induction bs using List.reverseRecOn with
  | nil => exact ⟨#[], by simp⟩
  | append_singleton bs b ih =>
    obtain ⟨more, hmore, size⟩ := ih
    refine ⟨more.push (workOf c maxDepth (w ++ bs ++ [b])).level, ?_, by simp [size]⟩
    rw [← List.append_assoc, levels_append, hmore, Array.append_push]

/-- Taking back the last bytes of a text leads to the stack before them. -/
theorem drop_levels (w bs : Bytes) :
    (levels c maxDepth (w ++ bs)).drop bs.length = levels c maxDepth w := by
  obtain ⟨more, hmore, size⟩ := exists_levels_append (c := c) w bs
  rw [hmore, ← size]
  exact drop_append (by simp) more

/-- A parse survives each byte of a byte string after a text. -/
def Survives (c : Compiled) (maxDepth : Nat) (w bs : Bytes) : Prop :=
  ∀ p < bs.length, (workOf c maxDepth (w ++ bs.take (p + 1))).Alive

@[simp] theorem survives_nil (w : Bytes) : Survives c maxDepth w [] := by simp [Survives]

theorem survives_cons {w bs : Bytes} {b : UInt8} : Survives c maxDepth w (b :: bs) ↔
    (workOf c maxDepth (w ++ [b])).Alive ∧ Survives c maxDepth (w ++ [b]) bs := by
  constructor
  · intro h
    refine ⟨by simpa using h 0 (by simp), fun p hp => ?_⟩
    simpa using h (p + 1) (by simpa using hp)
  · rintro ⟨alive, h⟩ p hp
    cases p with
    | zero => simpa using alive
    | succ p => simpa using h p (by simpa using hp)

theorem survives_append {w bs bs' : Bytes} : Survives c maxDepth w (bs ++ bs') ↔
    Survives c maxDepth w bs ∧ Survives c maxDepth (w ++ bs) bs' := by
  induction bs generalizing w with
  | nil => simp
  | cons b bs ih => simp [survives_cons, ih, and_assoc]

/-- Bytes are read as far as a parse survives. -/
theorem readWhile_levels (c : Compiled) (maxDepth : Nat) (w bs : Bytes) : ∃ read rest : Bytes, read ++ rest = bs ∧
    readWhile c maxDepth (levels c maxDepth w) bs = (levels c maxDepth (w ++ read), read, rest) ∧
      Survives c maxDepth w read ∧
        ∀ b ∈ rest.head?, ¬ Survives c maxDepth w (read ++ [b]) := by
  induction bs generalizing w with
  | nil => exact ⟨[], [], rfl, by simp [readWhile], by simp, by simp⟩
  | cons b bs ih =>
    rw [readWhile]
    split
    · rename_i dead
      refine ⟨[], b :: bs, rfl, by simp, by simp, fun b' hb' => ?_⟩
      obtain rfl : b = b' := by simpa using hb'
      intro h
      have alive := (survives_cons.1 h).1
      rw [workOf_append] at alive
      simp [next?_eq_some.2 ⟨alive, rfl⟩] at dead
    · rename_i l hl
      obtain ⟨alive, rfl⟩ := next?_eq_some.1 hl
      obtain ⟨read, rest, rfl, hread, survives, dead⟩ := ih (w ++ [b])
      rw [← workOf_append] at alive
      rw [← workOf_append, ← levels_append, hread]
      refine ⟨b :: read, rest, rfl, by simp, survives_cons.2 ⟨alive, survives⟩, fun b' hb' h => ?_⟩
      exact dead b' hb' (survives_cons.1 h).2

/-- A byte string is read if a parse survives all of it, and else nothing is changed. -/
theorem advance_levels (c : Compiled) (maxDepth : Nat) (w bs : Bytes) :
    Survives c maxDepth w bs ∧
      advance c maxDepth (levels c maxDepth w) bs = (true, levels c maxDepth (w ++ bs)) ∨
    ¬ Survives c maxDepth w bs ∧
      advance c maxDepth (levels c maxDepth w) bs = (false, levels c maxDepth w) := by
  obtain ⟨read, rest, rfl, hread, survives, dead⟩ := readWhile_levels c maxDepth w bs
  rw [advance, hread]
  cases rest with
  | nil => exact Or.inl ⟨by simpa using survives, by simp⟩
  | cons b rest =>
    refine Or.inr ⟨fun h => dead b rfl ?_, by simp [drop_levels]⟩
    rw [List.append_cons, survives_append] at h
    exact h.1

end ConstrainedDecoding.Stack
