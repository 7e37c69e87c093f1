import ConstrainedDecoding.Matcher.Stack
import ConstrainedDecoding.Proofs.Items
import Mathlib.Algebra.BigOperators.Ring.List
import Mathlib.Logic.Relation

/-!
# How a level is built

Building a level is a sequence of changes, each of which queues a state, notes what waits for a rule,
or notes what has ended. Every change has its reason in the states that were queued before, and
takes nothing away. When the queue is empty, nothing is left to be changed.
-/
namespace ConstrainedDecoding.Stack

/-- A state in a table of a compiled grammar whose rule was entered before a level. -/
structure State.Before (c : Compiled) (level : Nat) (s : State) : Prop where
  rule_lt : s.rule < c.tables.size
  state_lt : s.state < (c.table s.rule).size
  entered_lt : ∀ q, s.entered = some q → q < level

theorem State.Before.mono {c : Compiled} {n m : Nat} {s : State} (h : s.Before c n)
    (hnm : n ≤ m) : s.Before c m :=
  { h with entered_lt := fun q hq => (h.entered_lt q hq).trans_le hnm }

/-- The states of a level, and the states that wait at it, lie in the tables, and their rules were
entered there or before. -/
structure Level.InRange (c : Compiled) (level : Nat) (l : Level) : Prop where
  scannable : ∀ s ∈ l.scannable, s.Before c (level + 1)
  returns : ∀ x ∈ l.returns, x.2.Before c (level + 1)
  callees : ∀ x ∈ l.returns, x.1 < c.tables.size

/-- All levels of a stack are in range. -/
def InRange (c : Compiled) (stack : Stack) : Prop :=
  ∀ (q : Nat) (l : Level), stack[q]? = some l → l.InRange c q

namespace Work

/-- What waits for rules that were entered at a level: what was noted there. -/
def waiting (stack : Stack) (w : Work) (level : Nat) : Array (RuleId × State) :=
  if level = stack.size then w.returns
  else match stack[level]? with
    | some l => l.returns
    | none => #[]

theorem waiting_size (stack : Stack) (w : Work) : w.waiting stack stack.size = w.returns :=
  if_pos rfl

/-- A rule that was entered at a level ends at a queued state. -/
def Ended (c : Compiled) (w : Work) (rule : RuleId) (entered : Option Nat) : Prop :=
  ∃ s ∈ w.queue, s.rule = rule ∧ s.entered = entered ∧ (c.table s.rule).accepts s.state = true

section

variable (c : Compiled) (maxDepth : Nat) (stack : Stack) (Seed : State → Prop)

/-- A change to a level under construction, with its reason. -/
inductive Change (w : Work) : Work → Prop
  | seed {s : State} (seed : Seed s) (new : s.key ∉ w.seen) : Change w (w.add s)
  | pass {s : State} (seed : Seed s) (new : s.key ∉ w.seen)
    (scans : (c.table s.rule).scansAt s.state = true)
    (stays : (c.table s.rule).mayLeave s.state = false) :
    Change w { w with scannable := w.scannable.push s, seen := w.seen.insert s.key }
  | wait {s : State} {r : RuleId} {t : StateId} (mem : s ∈ w.queue) (shallow : s.depth < maxDepth)
    (call : (r, t) ∈ (c.table s.rule).callsOf s.state) :
    Change w { w with returns := w.returns.push (r, { s with state := t }) }
  | start {s : State} {r : RuleId} {t : StateId} (mem : s ∈ w.queue) (shallow : s.depth < maxDepth)
    (call : (r, t) ∈ (c.table s.rule).callsOf s.state) (new : (r, 0, some stack.size) ∉ w.seen) :
    Change w (w.add ⟨r, 0, some stack.size, s.depth + 1⟩)
  | resume {level : Nat} {x : RuleId × State} (ended : Ended c w x.1 (some level))
    (mem : x ∈ w.waiting stack level) (new : x.2.key ∉ w.seen) : Change w (w.add x.2)
  | finish {r : RuleId} (ended : Ended c w r (some stack.size)) :
    Change w { w with finished := r :: w.finished }
  | stop {r : RuleId} (ended : Ended c w r none) : Change w { w with ends := true }
  | scan {s : State} (mem : s ∈ w.queue) (scans : (c.table s.rule).scansAt s.state = true) :
    Change w { w with scannable := w.scannable.push s }

/-- Any number of changes. -/
abbrev Changes : Work → Work → Prop := Relation.ReflTransGen (Change c maxDepth stack Seed)

end

/-- Nothing that one level under construction has is missing in another. -/
structure Within (w w' : Work) : Prop where
  queue : ∃ more, w'.queue = w.queue ++ more
  seen : ∀ k ∈ w.seen, k ∈ w'.seen
  scannable : ∀ s ∈ w.scannable, s ∈ w'.scannable
  returns : ∀ x ∈ w.returns, x ∈ w'.returns
  finished : ∀ r ∈ w.finished, r ∈ w'.finished
  ends : w.ends = true → w'.ends = true

theorem Within.refl (w : Work) : Within w w :=
  ⟨⟨#[], by simp⟩, fun _ h => h, fun _ h => h, fun _ h => h, fun _ h => h, fun h => h⟩

theorem Within.trans {w₁ w₂ w₃ : Work} (h : Within w₁ w₂) (h' : Within w₂ w₃) : Within w₁ w₃ := by
  obtain ⟨more, hmore⟩ := h.queue
  obtain ⟨more', hmore'⟩ := h'.queue
  exact ⟨⟨more ++ more', by rw [hmore', hmore, Array.append_assoc]⟩,
    fun k hk => h'.seen k (h.seen k hk), fun s hs => h'.scannable s (h.scannable s hs),
    fun x hx => h'.returns x (h.returns x hx), fun r hr => h'.finished r (h.finished r hr),
    fun he => h'.ends (h.ends he)⟩

theorem Within.mem_queue {w w' : Work} (h : Within w w') {s : State} (hs : s ∈ w.queue) :
    s ∈ w'.queue := by
  obtain ⟨more, hmore⟩ := h.queue
  exact hmore ▸ Array.mem_append_left more hs

theorem within_add (w : Work) (s : State) : Within w (w.add s) where
  queue := ⟨#[s], by simp [add]⟩
  seen k hk := by simp [add, hk]
  scannable _ h := h
  returns _ h := h
  finished _ h := h
  ends h := h

section

variable {c : Compiled} {maxDepth : Nat} {stack : Stack} {Seed : State → Prop} {w w' : Work}

theorem Change.within (h : Change c maxDepth stack Seed w w') : Within w w' := by
  cases h with
  | seed | start | resume => exact within_add _ _
  | pass => exact { Within.refl w with
      seen := fun k hk => by simp [hk]
      scannable := fun s hs => Array.mem_push_of_mem _ hs }
  | wait => exact { Within.refl w with returns := fun x hx => Array.mem_push_of_mem _ hx }
  | finish => exact { Within.refl w with finished := fun r hr => List.mem_cons_of_mem _ hr }
  | stop => exact { Within.refl w with ends := fun _ => rfl }
  | scan => exact { Within.refl w with scannable := fun s hs => Array.mem_push_of_mem _ hs }

theorem Changes.within (h : Changes c maxDepth stack Seed w w') : Within w w' := by
  induction h with
  | refl => exact .refl w
  | tail _ h ih => exact ih.trans h.within

theorem Ended.mono (h : Within w w') {r : RuleId} {entered : Option Nat}
    (ended : Ended c w r entered) : Ended c w' r entered := by
  obtain ⟨s, hs, hr, he, ha⟩ := ended
  exact ⟨s, h.mem_queue hs, hr, he, ha⟩

/-! ## What has a reason -/

/-- Every part of a level under construction has its reason in queued states. -/
structure Founded (c : Compiled) (maxDepth : Nat) (stack : Stack) (w : Work) : Prop where
  seen : ∀ k, k ∈ w.seen ↔ (∃ s ∈ w.queue, s.key = k) ∨
    ∃ s ∈ w.scannable, s.key = k ∧ (c.table s.rule).mayLeave s.state = false
  scans : ∀ s ∈ w.scannable, s.key ∈ w.seen ∧ (c.table s.rule).scansAt s.state = true
  returns : ∀ x ∈ w.returns, ∃ s ∈ w.queue, ∃ t, s.depth < maxDepth ∧
    (x.1, t) ∈ (c.table s.rule).callsOf s.state ∧ x.2 = { s with state := t }
  finished : ∀ r ∈ w.finished, Ended c w r (some stack.size)
  ends : w.ends = true → ∃ r, Ended c w r none

private theorem founded_add (f : Founded c maxDepth stack w) (s : State) :
    Founded c maxDepth stack (w.add s) where
  seen k := by
    simp only [add, Std.TreeSet.mem_insert, Std.LawfulEqCmp.compare_eq_iff_eq, f.seen, Array.mem_push]
    grind
  scans s' hs' := ⟨(within_add w s).seen _ (f.scans s' hs').1, (f.scans s' hs').2⟩
  returns x hx := by
    obtain ⟨s', hs', h⟩ := f.returns x hx
    exact ⟨s', (within_add w s).mem_queue hs', h⟩
  finished r hr := (f.finished r hr).mono (within_add w s)
  ends he := by
    obtain ⟨r, hr⟩ := f.ends he
    exact ⟨r, hr.mono (within_add w s)⟩

theorem Change.founded (h : Change c maxDepth stack Seed w w') (f : Founded c maxDepth stack w) :
    Founded c maxDepth stack w' := by
  cases h with
  | seed | start | resume => exact founded_add f _
  | @pass s seed new scans stays =>
    refine { f with seen := fun k => ?_, scans := fun s' hs' => ?_ }
    · simp only [Std.TreeSet.mem_insert, Std.LawfulEqCmp.compare_eq_iff_eq, f.seen, Array.mem_push]
      grind
    · rcases Array.mem_push.1 hs' with hs' | rfl
      · exact ⟨by simp [(f.scans s' hs').1], (f.scans s' hs').2⟩
      · exact ⟨by simp, scans⟩
  | @wait s r t mem shallow call =>
    refine { f with returns := fun x hx => ?_ }
    rcases Array.mem_push.1 hx with hx | rfl
    · exact f.returns x hx
    · exact ⟨s, mem, t, shallow, call, rfl⟩
  | @finish r ended =>
    refine { f with finished := fun r' hr' => ?_ }
    rcases List.mem_cons.1 hr' with rfl | hr'
    · exact ended
    · exact f.finished r' hr'
  | stop ended => exact { f with ends := fun _ => ⟨_, ended⟩ }
  | @scan s mem scans =>
    have hs : s.key ∈ w.seen := (f.seen _).2 (Or.inl ⟨s, mem, rfl⟩)
    refine { f with seen := fun k => ?_, scans := fun s' hs' => ?_ }
    · rw [f.seen]
      simp only [Array.mem_push]
      grind
    · rcases Array.mem_push.1 hs' with hs' | rfl
      · exact f.scans s' hs'
      · exact ⟨hs, scans⟩

private theorem founded_empty : Founded c maxDepth stack empty where
  seen := by simp [empty]
  scans := by simp [empty]
  returns := by simp [empty]
  finished := by simp [empty]
  ends := by simp [empty]

/-- What is changed for a reason, starting with nothing, has reasons for all its parts. -/
theorem Changes.founded (h : Changes c maxDepth stack Seed empty w) :
    Founded c maxDepth stack w := by
  induction h with
  | refl => exact founded_empty
  | tail _ h ih => exact h.founded ih

theorem Founded.key_mem (f : Founded c maxDepth stack w) {s : State} (hs : s ∈ w.queue) :
    s.key ∈ w.seen :=
  (f.seen _).2 (Or.inl ⟨s, hs, rfl⟩)

/-! ## Where the states of a level lie -/

/-- The states of a level under construction lie in the tables, none is queued twice, and where a
rule was entered its first state has been met. -/
structure Placed (c : Compiled) (stack : Stack) (w : Work) : Prop where
  queue : ∀ s ∈ w.queue, s.Before c (stack.size + 1)
  scannable : ∀ s ∈ w.scannable, s.Before c (stack.size + 1)
  started : ∀ s ∈ w.queue, s.entered = some stack.size → (s.rule, 0, some stack.size) ∈ w.seen
  nodup : (w.queue.toList.map State.key).Nodup

private theorem before_target (hc : c.Regular) {s : State} {n : Nat} (hs : s.Before c n)
    {r : RuleId} {t : StateId} (call : (r, t) ∈ (c.table s.rule).callsOf s.state) :
    State.Before c n { s with state := t } :=
  { hs with state_lt := ((hc.table _ hs.rule_lt).call_lt _ _ _ call).2 }

/-- What waits for a rule that was entered at a level lies where it should. -/
theorem before_of_waiting (hc : c.Regular) (hstack : InRange c stack)
    (f : Founded c maxDepth stack w) (p : Placed c stack w) {level : Nat} {x : RuleId × State}
    (hx : x ∈ w.waiting stack level) : x.2.Before c (stack.size + 1) ∧
      (x.2.entered = some stack.size → (x.2.rule, 0, some stack.size) ∈ w.seen) := by
  unfold waiting at hx
  split at hx
  · obtain ⟨s, hs, t, -, call, hxs⟩ := f.returns x hx
    rw [hxs]
    exact ⟨before_target hc (p.queue s hs) call, p.started s hs⟩
  · split at hx
    · rename_i l hl
      have hlt : level < stack.size := (Array.getElem?_eq_some_iff.1 hl).1
      have hbefore := (hstack level l hl).returns x hx
      refine ⟨hbefore.mono (by omega), fun he => ?_⟩
      have := hbefore.entered_lt _ he
      omega
    · simp at hx

private theorem placed_add (f : Founded c maxDepth stack w) (p : Placed c stack w) {s : State}
    (new : s.key ∉ w.seen) (before : s.Before c (stack.size + 1))
    (started : s.entered = some stack.size → (s.rule, 0, some stack.size) ∈ (w.add s).seen) :
    Placed c stack (w.add s) where
  queue s' hs' := by
    rcases Array.mem_push.1 hs' with hs' | rfl
    exacts [p.queue s' hs', before]
  scannable := p.scannable
  started s' hs' he := by
    rcases Array.mem_push.1 hs' with hs' | rfl
    exacts [(within_add w s).seen _ (p.started s' hs' he), started he]
  nodup := by
    have : ∀ s' ∈ w.queue.toList, s'.key ≠ s.key := fun s' hs' heq =>
      new (heq ▸ f.key_mem (Array.mem_toList_iff.1 hs'))
    simpa [add, List.nodup_append, p.nodup] using this

theorem Change.placed (hc : c.Regular) (hstack : InRange c stack)
    (hseed : ∀ s, Seed s → s.Before c stack.size) (h : Change c maxDepth stack Seed w w')
    (f : Founded c maxDepth stack w) (p : Placed c stack w) : Placed c stack w' := by
  cases h with
  | seed seed new =>
    refine placed_add f p new ((hseed _ seed).mono (by omega)) fun he => ?_
    exact absurd ((hseed _ seed).entered_lt _ he) (by omega)
  | pass seed new scans stays =>
    refine { p with scannable := fun s' hs' => ?_, started := fun s' hs' he => ?_ }
    · rcases Array.mem_push.1 hs' with hs' | rfl
      exacts [p.scannable s' hs', (hseed _ seed).mono (by omega)]
    · simp [p.started s' hs' he]
  | wait | finish | stop => exact { p with }
  | @start s r t mem shallow call new =>
    obtain ⟨hr, -⟩ := (hc.table _ (p.queue s mem).rule_lt).call_lt _ _ _ call
    refine placed_add f p new ⟨hr, (hc.table r hr).pos, fun q hq => ?_⟩ fun _ => ?_
    · obtain rfl : stack.size = q := by simpa using hq
      omega
    · simp [add, State.key]
  | resume ended mem new =>
    obtain ⟨before, started⟩ := before_of_waiting hc hstack f p mem
    exact placed_add f p new before fun he => (within_add w _).seen _ (started he)
  | scan mem scans =>
    refine { p with scannable := fun s' hs' => ?_ }
    rcases Array.mem_push.1 hs' with hs' | rfl
    exacts [p.scannable s' hs', p.queue _ mem]

theorem Changes.placed (hc : c.Regular) (hstack : InRange c stack)
    (hseed : ∀ s, Seed s → s.Before c stack.size)
    (h : Changes c maxDepth stack Seed empty w) : Placed c stack w := by
  induction h with
  | refl => exact ⟨by simp [empty], by simp [empty], by simp [empty], by simp [empty]⟩
  | tail h step ih => exact step.placed hc hstack hseed (Changes.founded h) ih

/-- The level that is built is in range. -/
theorem Placed.inRange (hc : c.Regular) (f : Founded c maxDepth stack w) (p : Placed c stack w) :
    w.level.InRange c stack.size where
  scannable := p.scannable
  returns x hx := by
    obtain ⟨s, hs, t, -, call, hxs⟩ := f.returns x hx
    rw [hxs]
    exact before_target hc (p.queue s hs) call
  callees x hx := by
    obtain ⟨s, hs, t, -, call, -⟩ := f.returns x hx
    exact ((hc.table _ (p.queue s hs).rule_lt).call_lt _ _ _ call).1

/-! ## How many states can be queued -/

/-- The keys of the states that can be told apart at a level. -/
def keysAt (c : Compiled) (level : Nat) : List Key :=
  (List.range c.tables.size).flatMap fun r => (List.range (c.table r).size).flatMap fun s =>
    (none :: (List.range (level + 1)).map some).map fun k => (r, s, k)

theorem key_mem_keysAt {s : State} {level : Nat} (h : s.Before c (level + 1)) :
    s.key ∈ keysAt c level := by
  have entered : s.entered ∈ none :: (List.range (level + 1)).map some := by
    cases he : s.entered with
    | none => simp
    | some q => simpa using h.entered_lt q he
  exact List.mem_flatMap.2 ⟨s.rule, List.mem_range.2 h.rule_lt, List.mem_flatMap.2
    ⟨s.state, List.mem_range.2 h.state_lt, List.mem_map.2 ⟨s.entered, entered, rfl⟩⟩⟩

theorem length_keysAt (c : Compiled) (level : Nat) :
    (keysAt c level).length = c.stateCount * (level + 2) := by
  have tables : c.tables.toList = (List.range c.tables.size).map c.table := by
    refine List.ext_getElem (by simp) fun r hr _ => ?_
    simp [Compiled.table, Array.getD_eq_getD_getElem?, show r < c.tables.size by simpa using hr]
  have count : c.stateCount = ((List.range c.tables.size).map fun r => (c.table r).size).sum := by
    rw [Compiled.stateCount, ← Array.foldl_toList, tables, List.foldl_map,
      List.sum_eq_foldl, List.foldl_map]
  rw [count, ← List.sum_map_mul_right]
  simp [keysAt, List.length_flatMap]

/-- No more states are queued than can be told apart. -/
theorem Placed.size_le (p : Placed c stack w) : w.queue.size ≤ capacity c stack := by
  have subset : w.queue.toList.map State.key ⊆ keysAt c stack.size := fun k hk => by
    obtain ⟨s, hs, rfl⟩ := List.mem_map.1 hk
    exact key_mem_keysAt (p.queue s (Array.mem_toList_iff.1 hs))
  have := (p.nodup.subperm subset).length_le
  rwa [List.length_map, Array.length_toList, length_keysAt] at this

/-! ## Nothing is left to be done -/

/-- A rule that ended has had its consequences: the text may end, or what waits for the rule goes
on. -/
def Answered (stack : Stack) (w : Work) (rule : RuleId) : Option Nat → Prop
  | none => w.ends = true
  | some level => (level = stack.size → rule ∈ w.finished) ∧
      ∀ x ∈ w.waiting stack level, level ≠ stack.size → x.1 = rule → x.2.key ∈ w.seen

/-- All that follows from a queued state has been done. -/
structure Done (c : Compiled) (maxDepth : Nat) (stack : Stack) (w : Work) (s : State) : Prop where
  called : s.depth < maxDepth → ∀ r t, (r, t) ∈ (c.table s.rule).callsOf s.state →
    (r, { s with state := t }) ∈ w.returns ∧ (r, 0, some stack.size) ∈ w.seen
  ended : (c.table s.rule).accepts s.state = true → Answered stack w s.rule s.entered
  scanned : (c.table s.rule).scansAt s.state = true → s ∈ w.scannable

/-- What waits for a rule that has ended at the level under construction has been met. -/
def Linked (w : Work) : Prop := ∀ x ∈ w.returns, x.1 ∈ w.finished → x.2.key ∈ w.seen

theorem Answered.mono (h : Within w w') {rule : RuleId} {entered : Option Nat}
    (answered : Answered stack w rule entered) : Answered stack w' rule entered := by
  cases entered with
  | none => exact h.ends answered
  | some level =>
    refine ⟨fun he => h.finished _ (answered.1 he), fun x hx he hr => h.seen _ ?_⟩
    refine answered.2 x ?_ he hr
    rwa [waiting, if_neg he] at hx ⊢

theorem Done.mono (h : Within w w') {s : State} (done : Done c maxDepth stack w s) :
    Done c maxDepth stack w' s where
  called hd r t call := ⟨h.returns _ (done.called hd r t call).1, h.seen _ (done.called hd r t call).2⟩
  ended ha := (done.ended ha).mono h
  scanned hs := h.scannable _ (done.scanned hs)

theorem isNew_iff {s : State} : w.isNew s = true ↔ s.key ∉ w.seen := by
  rw [isNew, Bool.not_eq_true', ← Bool.not_eq_true, Std.TreeSet.contains_iff_mem]

@[simp] theorem returns_addNew (w : Work) (s : State) : (w.addNew s).returns = w.returns := by
  unfold addNew
  split <;> rfl

@[simp] theorem finished_addNew (w : Work) (s : State) : (w.addNew s).finished = w.finished := by
  unfold addNew
  split <;> rfl

theorem key_mem_addNew (w : Work) (s : State) : s.key ∈ (w.addNew s).seen := by
  unfold addNew
  split
  · simp [add]
  · exact not_not.1 fun h => ‹¬ w.isNew s = true› (isNew_iff.2 h)

/-- Queueing a state that is not known yet is a change, or none. -/
theorem changes_addNew {s : State} (h : s.key ∉ w.seen → Change c maxDepth stack Seed w (w.add s)) :
    Changes c maxDepth stack Seed w (w.addNew s) := by
  unfold addNew
  split
  · exact .single (h (isNew_iff.1 ‹_›))
  · exact .refl

/-- Queueing what waits for a rule that has ended. -/
theorem resume_spec (Seed : State → Prop) (maxDepth : Nat) {rule : RuleId} {level : Nat}
    (xs : Array (RuleId × State)) (ended : Ended c w rule (some level)) (hxs : ∀ x ∈ xs, x ∈ w.waiting stack level) :
    Changes c maxDepth stack Seed w (w.resume rule xs) ∧
      (w.resume rule xs).returns = w.returns ∧ (w.resume rule xs).finished = w.finished ∧
      ∀ x ∈ xs, x.1 = rule → x.2.key ∈ (w.resume rule xs).seen := by
  obtain ⟨xs⟩ := xs
  simp only [resume, List.size_toArray, List.foldl_toArray', List.mem_toArray] at hxs ⊢
  induction xs generalizing w with
  | nil => exact ⟨.refl, rfl, rfl, by simp⟩
  | cons x xs ih =>
    rw [List.foldl_cons]
    by_cases hr : x.1 = rule
    · rw [if_pos hr]
      have change : Changes c maxDepth stack Seed w (w.addNew x.2) :=
        changes_addNew fun new => .resume (hr ▸ ended) (hxs x List.mem_cons_self) new
      obtain ⟨h, hreturns, hfinished, hseen⟩ := ih (ended.mono change.within) fun y hy => by
        simpa [waiting] using hxs y (List.mem_cons_of_mem _ hy)
      refine ⟨change.trans h, hreturns.trans (by simp), hfinished.trans (by simp),
        fun y hy hyr => ?_⟩
      rcases List.mem_cons.1 hy with rfl | hy
      exacts [h.within.seen _ (key_mem_addNew w _), hseen y hy hyr]
    · rw [if_neg hr]
      obtain ⟨h, hreturns, hfinished, hseen⟩ := ih ended fun y hy =>
        hxs y (List.mem_cons_of_mem _ hy)
      refine ⟨h, hreturns, hfinished, fun y hy hyr => ?_⟩
      rcases List.mem_cons.1 hy with rfl | hy
      exacts [absurd hyr hr, hseen y hy hyr]

theorem Linked.mono {w w' : Work} (linked : Linked w) (h : Within w w')
    (hreturns : w'.returns = w.returns) (hfinished : w'.finished = w.finished) : Linked w' :=
  fun x hx hf => h.seen _ (linked x (hreturns ▸ hx) (hfinished ▸ hf))

/-- What holds of a level under construction between two steps. -/
structure Underway (c : Compiled) (maxDepth : Nat) (stack : Stack) (Seed : State → Prop)
    (w : Work) : Prop where
  changes : Changes c maxDepth stack Seed empty w
  linked : Linked w

end

section

variable {c : Compiled} {maxDepth : Nat} {stack : Stack} {Seed : State → Prop} {w : Work}

/-- Calling a rule. -/
theorem call_spec (hc : c.Regular) (hstack : InRange c stack)
    (hseed : ∀ s, Seed s → s.Before c stack.size) (h : Underway c maxDepth stack Seed w)
    {s : State} (mem : s ∈ w.queue) (shallow : s.depth < maxDepth) {r : RuleId} {t : StateId}
    (hcall : (r, t) ∈ (c.table s.rule).callsOf s.state) :
    Underway c maxDepth stack Seed (w.call stack.size s r t) ∧
      Within w (w.call stack.size s r t) ∧
      (r, { s with state := t }) ∈ (w.call stack.size s r t).returns ∧
      (r, 0, some stack.size) ∈ (w.call stack.size s r t).seen := by
  set after : State := { s with state := t } with hafter
  set w₁ : Work := { w with returns := w.returns.push (r, after) } with hw₁
  set start : State := ⟨r, 0, some stack.size, s.depth + 1⟩ with hstart
  have wait : Change c maxDepth stack Seed w w₁ := .wait mem shallow hcall
  have h₁ : Changes c maxDepth stack Seed empty w₁ := h.changes.tail wait
  have waits : (r, after) ∈ w₁.returns := by simp [hw₁]
  have placed := Changes.placed hc hstack hseed h₁
  have linked (hr : r ∉ w₁.finished) : Linked w₁ := fun x hx hf => by
    rcases Array.mem_push.1 hx with hx | rfl
    exacts [h.linked x hx hf, absurd hf hr]
  have eq : w.call stack.size s r t = if w₁.isNew start then w₁.add start
      else if w₁.finished.contains r then w₁.addNew after else w₁ := rfl
  rw [eq]
  split
  · rename_i new
    have change : Change c maxDepth stack Seed w₁ (w₁.add start) :=
      .start mem shallow hcall (isNew_iff.1 new)
    have hr : r ∉ w₁.finished := fun hr => by
      obtain ⟨s', hs', rfl, he, -⟩ := (Changes.founded h₁).finished r hr
      exact isNew_iff.1 new (placed.started s' hs' he)
    exact ⟨⟨h₁.tail change, (linked hr).mono change.within rfl rfl⟩,
      wait.within.trans change.within, waits, by simp [add, hstart, State.key]⟩
  · rename_i old
    have old : start.key ∈ w₁.seen := not_not.1 fun h => old (isNew_iff.2 h)
    split
    · rename_i hr
      have hr : r ∈ w₁.finished := by simpa using hr
      have change : Changes c maxDepth stack Seed w₁ (w₁.addNew after) :=
        changes_addNew fun new =>
          .resume ((Changes.founded h₁).finished r hr) (waiting_size stack w₁ ▸ waits) new
      refine ⟨⟨h₁.trans change, fun x hx hf => ?_⟩, wait.within.trans change.within,
        by simpa using waits, change.within.seen _ old⟩
      rw [returns_addNew] at hx
      rw [finished_addNew] at hf
      rcases Array.mem_push.1 hx with hx | rfl
      exacts [change.within.seen _ (h.linked x hx hf), key_mem_addNew w₁ after]
    · rename_i hr
      exact ⟨⟨h₁, linked (by simpa using hr)⟩, wait.within, waits, old⟩

/-- Calling all rules that a state calls. -/
theorem calls_spec (hc : c.Regular) (hstack : InRange c stack)
    (hseed : ∀ s, Seed s → s.Before c stack.size) {s : State} (shallow : s.depth < maxDepth)
    (calls : List (RuleId × StateId))
    (hcalls : ∀ x ∈ calls, x ∈ (c.table s.rule).callsOf s.state)
    (h : Underway c maxDepth stack Seed w) (mem : s ∈ w.queue) :
    let w' := calls.foldl (fun w (r, t) => w.call stack.size s r t) w
    Underway c maxDepth stack Seed w' ∧ Within w w' ∧ ∀ r t, (r, t) ∈ calls →
      (r, { s with state := t }) ∈ w'.returns ∧ (r, 0, some stack.size) ∈ w'.seen := by
  induction calls generalizing w with
  | nil => exact ⟨h, .refl w, by simp⟩
  | cons x calls ih =>
    obtain ⟨r, t⟩ := x
    obtain ⟨h₁, within, waits, started⟩ :=
      call_spec hc hstack hseed h mem shallow (hcalls _ List.mem_cons_self)
    obtain ⟨h₂, within', all⟩ := ih (fun x hx => hcalls x (List.mem_cons_of_mem _ hx)) h₁
      (within.mem_queue mem)
    refine ⟨h₂, within.trans within', fun r' t' hx => ?_⟩
    rcases List.mem_cons.1 hx with heq | hx
    · simp only [Prod.mk.injEq] at heq
      obtain ⟨rfl, rfl⟩ := heq
      exact ⟨within'.returns _ waits, within'.seen _ started⟩
    · exact all r' t' hx

/-- Ending a rule that was entered before the level. -/
private theorem finish_before (h : Underway c maxDepth stack Seed w) {s : State} {level : Nat}
    (he : s.entered = some level) (hlevel : level ≠ stack.size)
    (ended : Ended c w s.rule (some level)) :
    Underway c maxDepth stack Seed (w.finish stack s) ∧ Within w (w.finish stack s) ∧
      Answered stack (w.finish stack s) s.rule (some level) := by
  have eq : w.finish stack s = w.resume s.rule (w.waiting stack level) := by
    simp only [finish, he, waiting, if_neg hlevel]
    cases stack[level]? <;> simp [resume]
  obtain ⟨change, hreturns, hfinished, seen⟩ :=
    resume_spec Seed maxDepth (w.waiting stack level) ended fun x hx => hx
  rw [← eq] at change hreturns hfinished seen
  refine ⟨⟨h.changes.trans change, h.linked.mono (Changes.within change) hreturns hfinished⟩,
    Changes.within change, fun he => absurd he hlevel, fun x hx _ hr => seen x ?_ hr⟩
  rwa [waiting, if_neg hlevel] at hx ⊢

/-- Ending a rule that was entered at the level: it is noted that it has ended, and what waits for it
so far goes on. -/
private theorem finish_here (h : Underway c maxDepth stack Seed w) {s : State}
    (he : s.entered = some stack.size) (ended : Ended c w s.rule (some stack.size)) :
    Underway c maxDepth stack Seed (w.finish stack s) ∧ Within w (w.finish stack s) ∧
      Answered stack (w.finish stack s) s.rule (some stack.size) := by
  obtain ⟨w₁, eq, change, returns, finished⟩ : ∃ w₁ : Work,
      w.finish stack s = w₁.resume s.rule w₁.returns ∧ Changes c maxDepth stack Seed w w₁ ∧
      w₁.returns = w.returns ∧ ∀ r, r ∈ w₁.finished ↔ r = s.rule ∨ r ∈ w.finished := by
    by_cases hr : s.rule ∈ w.finished
    · exact ⟨w, by simp [finish, he, hr], .refl, rfl, fun r => by grind⟩
    · exact ⟨{ w with finished := s.rule :: w.finished }, by simp [finish, he, hr],
        .single (.finish ended), rfl, by simp⟩
  obtain ⟨change', hreturns, hfinished, seen⟩ :=
    resume_spec Seed maxDepth w₁.returns (ended.mono (Changes.within change)) fun x hx => waiting_size stack w₁ ▸ hx
  rw [← eq] at change' hreturns hfinished seen
  have within : Within w (w.finish stack s) := Changes.within (change.trans change')
  refine ⟨⟨h.changes.trans (change.trans change'), fun x hx hf => ?_⟩, within,
    fun _ => hfinished ▸ (finished _).2 (Or.inl rfl), fun _ _ h => absurd rfl h⟩
  rw [hreturns] at hx
  rcases (finished _).1 (hfinished ▸ hf) with hr | hf
  · exact seen x hx hr
  · exact within.seen _ (h.linked x (returns ▸ hx) hf)

/-- Ending the rule of a state. -/
theorem finish_spec (h : Underway c maxDepth stack Seed w) {s : State} (mem : s ∈ w.queue)
    (accepts : (c.table s.rule).accepts s.state = true) :
    Underway c maxDepth stack Seed (w.finish stack s) ∧ Within w (w.finish stack s) ∧
      Answered stack (w.finish stack s) s.rule s.entered := by
  cases he : s.entered with
  | none =>
    have eq : w.finish stack s = { w with ends := true } := by rw [finish, he]
    have change : Change c maxDepth stack Seed w { w with ends := true } :=
      .stop ⟨s, mem, rfl, he, accepts⟩
    rw [eq]
    exact ⟨⟨h.changes.tail change, h.linked.mono change.within rfl rfl⟩, change.within, rfl⟩
  | some level =>
    have ended : Ended c w s.rule (some level) := ⟨s, mem, rfl, he, accepts⟩
    by_cases hlevel : level = stack.size
    · subst hlevel
      exact finish_here h he ended
    · exact finish_before h he hlevel ended

/-- Dealing with a queued state does all that follows from it. -/
theorem step_spec (hc : c.Regular) (hstack : InRange c stack)
    (hseed : ∀ s, Seed s → s.Before c stack.size) (h : Underway c maxDepth stack Seed w)
    {s : State} (mem : s ∈ w.queue) :
    Underway c maxDepth stack Seed (step c maxDepth stack s w) ∧
      Within w (step c maxDepth stack s w) ∧ Done c maxDepth stack (step c maxDepth stack s w) s := by
  obtain ⟨w₁, eq₁, h₁, within₁, called⟩ : ∃ w₁ : Work,
      (if s.depth < maxDepth then ((c.table s.rule).callsOf s.state).foldl
        (fun w (r, t) => w.call stack.size s r t) w else w) = w₁ ∧
      Underway c maxDepth stack Seed w₁ ∧ Within w w₁ ∧ (s.depth < maxDepth → ∀ r t,
        (r, t) ∈ (c.table s.rule).callsOf s.state →
          (r, { s with state := t }) ∈ w₁.returns ∧ (r, 0, some stack.size) ∈ w₁.seen) := by
    split
    · rename_i shallow
      obtain ⟨h₁, within, all⟩ := calls_spec hc hstack hseed shallow
        ((c.table s.rule).callsOf s.state) (fun _ hx => hx) h mem
      exact ⟨_, rfl, h₁, within, fun _ => all⟩
    · rename_i deep
      exact ⟨w, rfl, h, .refl w, fun shallow => absurd shallow deep⟩
  obtain ⟨w₂, eq₂, h₂, within₂, answered⟩ : ∃ w₂ : Work,
      (if (c.table s.rule).accepts s.state then w₁.finish stack s else w₁) = w₂ ∧
      Underway c maxDepth stack Seed w₂ ∧ Within w₁ w₂ ∧
      ((c.table s.rule).accepts s.state = true → Answered stack w₂ s.rule s.entered) := by
    split
    · rename_i accepts
      obtain ⟨h₂, within, answered⟩ := finish_spec h₁ (within₁.mem_queue mem) accepts
      exact ⟨_, rfl, h₂, within, fun _ => answered⟩
    · rename_i rejects
      exact ⟨w₁, rfl, h₁, .refl w₁, fun accepts => absurd accepts rejects⟩
  have within : Within w w₂ := within₁.trans within₂
  have done (w' : Work) (within' : Within w₂ w')
      (scanned : (c.table s.rule).scansAt s.state = true → s ∈ w'.scannable) :
      Done c maxDepth stack w' s :=
    ⟨fun shallow r t call => ⟨(within₂.trans within').returns _ (called shallow r t call).1,
      (within₂.trans within').seen _ (called shallow r t call).2⟩,
      fun accepts => (answered accepts).mono within', scanned⟩
  simp only [step, eq₁, eq₂]
  split
  · rename_i scans
    have change : Change c maxDepth stack Seed w₂ { w₂ with scannable := w₂.scannable.push s } :=
      .scan (within.mem_queue mem) scans
    exact ⟨⟨h₂.changes.tail change, h₂.linked.mono change.within rfl rfl⟩,
      within.trans change.within, done _ change.within fun _ => by simp⟩
  · rename_i stays
    exact ⟨h₂, within, done w₂ (.refl w₂) fun scans => absurd scans stays⟩

/-- Dealing with some of the queued states, one after the other. -/
theorem underway_run (hc : c.Regular) (hstack : InRange c stack)
    (hseed : ∀ s, Seed s → s.Before c stack.size) (n : Nat) : ∀ {i : Nat} {w : Work},
      Underway c maxDepth stack Seed w → Underway c maxDepth stack Seed (run c maxDepth stack n i w) := by
  induction n with
  | zero => exact id
  | succ n ih =>
    intro i w h
    rw [run]
    split
    · exact h
    · rename_i s hs
      exact ih (step_spec hc hstack hseed h (Array.mem_of_getElem? hs)).1

/-! ## The finished level -/

/-- What holds of a level when nothing is left to be done. -/
structure Built (c : Compiled) (maxDepth : Nat) (stack : Stack) (Seed : State → Prop)
    (w : Work) : Prop extends Underway c maxDepth stack Seed w where
  placed : Placed c stack w
  done : ∀ s ∈ w.queue, Done c maxDepth stack w s
  seeds : ∀ s, Seed s → s.key ∈ w.seen

/-- Dealing with the queued states one after the other leaves nothing to be done, as there cannot be
more states than there is fuel for. -/
theorem run_spec (hc : c.Regular) (hstack : InRange c stack)
    (hseed : ∀ s, Seed s → s.Before c stack.size) (fuel : Nat) :
    ∀ (i : Nat) (w : Work), Underway c maxDepth stack Seed w →
      (∀ j < i, ∀ s, w.queue[j]? = some s → Done c maxDepth stack w s) →
      capacity c stack ≤ fuel + i →
      Underway c maxDepth stack Seed (run c maxDepth stack fuel i w) ∧
        Within w (run c maxDepth stack fuel i w) ∧
        ∀ s ∈ (run c maxDepth stack fuel i w).queue,
          Done c maxDepth stack (run c maxDepth stack fuel i w) s := by
  induction fuel with
  | zero =>
    intro i w h done enough
    rw [run]
    refine ⟨h, .refl w, fun s hs => ?_⟩
    obtain ⟨j, hj, rfl⟩ := Array.mem_iff_getElem.1 hs
    have := (Changes.placed hc hstack hseed h.changes).size_le
    exact done j (by omega) _ (by simp [hj])
  | succ fuel ih =>
    intro i w h done enough
    rw [run]
    split
    · rename_i hnone
      refine ⟨h, .refl w, fun s hs => ?_⟩
      obtain ⟨j, hj, rfl⟩ := Array.mem_iff_getElem.1 hs
      have : w.queue.size ≤ i := by simpa using hnone
      exact done j (by omega) _ (by simp [hj])
    · rename_i s hs
      obtain ⟨h', within, done'⟩ := step_spec hc hstack hseed h (Array.mem_of_getElem? hs)
      obtain ⟨h'', within', all⟩ := ih (i + 1) _ h' (fun j hj s' hs' => by
        obtain ⟨more, hmore⟩ := within.queue
        have hi : i < w.queue.size := (Array.getElem?_eq_some_iff.1 hs).1
        rw [hmore, Array.getElem?_append_left (by omega)] at hs'
        rcases Nat.lt_succ_iff_lt_or_eq.1 hj with hj | rfl
        · exact (done j hj s' hs').mono within
        · obtain rfl : s = s' := Option.some.inj (hs.symm.trans hs')
          exact done') (by omega)
      exact ⟨h'', within.trans within', all⟩

/-- Dealing with all queued states builds a level. -/
theorem runAll_spec (hc : c.Regular) (hstack : InRange c stack)
    (hseed : ∀ s, Seed s → s.Before c stack.size) (h : Underway c maxDepth stack Seed w)
    (seeds : ∀ s, Seed s → s.key ∈ w.seen) :
    Built c maxDepth stack Seed (runAll c maxDepth stack w) := by
  obtain ⟨h', within, done⟩ := run_spec hc hstack hseed (capacity c stack) 0 w h
    (fun j hj => absurd hj (Nat.not_lt_zero j)) le_rfl
  exact ⟨h', Changes.placed hc hstack hseed h'.changes, done,
    fun s hs => within.seen _ (seeds s hs)⟩

theorem Built.founded (h : Built c maxDepth stack Seed w) : Founded c maxDepth stack w :=
  Changes.founded h.changes

/-- A state that was met and reads a byte is among those from which the next byte is read. -/
theorem Built.exists_scannable (h : Built c maxDepth stack Seed w) {r : RuleId} {t : StateId}
    {k : Option Nat} (seen : (r, t, k) ∈ w.seen) (scans : (c.table r).scansAt t = true) :
    ∃ s ∈ w.scannable, s.rule = r ∧ s.state = t ∧ s.entered = k := by
  rcases (h.founded.seen _).1 seen with ⟨s, hs, heq⟩ | ⟨s, hs, heq, -⟩
  · obtain ⟨rfl, rfl, rfl⟩ : s.rule = r ∧ s.state = t ∧ s.entered = k := by
      simpa [State.key] using heq
    exact ⟨s, (h.done s hs).scanned scans, rfl, rfl, rfl⟩
  · exact ⟨s, hs, by simpa [State.key] using heq⟩

/-- A state that was met and may be left has been queued. -/
theorem Built.exists_queued (h : Built c maxDepth stack Seed w) {r : RuleId} {t : StateId}
    {k : Option Nat} (seen : (r, t, k) ∈ w.seen) (leaves : (c.table r).mayLeave t = true) :
    ∃ s ∈ w.queue, s.rule = r ∧ s.state = t ∧ s.entered = k := by
  rcases (h.founded.seen _).1 seen with ⟨s, hs, heq⟩ | ⟨s, -, heq, stays⟩
  · exact ⟨s, hs, by simpa [State.key] using heq⟩
  · obtain ⟨rfl, rfl, -⟩ : s.rule = r ∧ s.state = t ∧ s.entered = k := by
      simpa [State.key] using heq
    simp [stays] at leaves

/-- A stack stays in range when the level built on it is put on top. -/
theorem Built.inRange (hc : c.Regular) (hstack : InRange c stack)
    (h : Built c maxDepth stack Seed w) : InRange c (stack.push w.level) := by
  intro q l hl
  rw [Array.getElem?_push] at hl
  split at hl
  · obtain rfl : w.level = l := Option.some.inj hl
    rename_i hq
    exact hq ▸ h.placed.inRange hc h.founded
  · exact hstack q l hl

end

end Work

end ConstrainedDecoding.Stack
