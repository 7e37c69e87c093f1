import ConstrainedDecoding.Tag.Watcher
import Mathlib.Data.List.Infix

/-!
# What the watcher knows

After a text, the watcher stands in the longest end of the text that begins a trigger. So it tells
from its state alone which triggers end the text, and which characters can lead it on. Here the states
are the beginnings of triggers themselves, and not numbers of them.
-/
namespace ConstrainedDecoding.Tag

/-- Some triggers, as lists of characters. -/
structure Triggers where
  words : List (List Char)

namespace Triggers

/-- Triggers from texts. -/
def ofStrings (triggers : List String) : Triggers := ⟨triggers.map String.toList⟩

/-- The beginnings of a word, from the shortest to the whole word. -/
def beginnings (w : List Char) : List (List Char) :=
  (List.range (w.length + 1)).map (w.take ·)

/-- The states: the empty text first, then the beginnings of triggers in order of appearance. -/
def states (t : Triggers) : List (List Char) := ([] :: t.words.flatMap beginnings).eraseDups

/-- Whether a text is the beginning of a trigger; the empty text always counts. -/
def isState (t : Triggers) (u : List Char) : Bool :=
  u.isEmpty || t.words.any fun w => u.isPrefixOf w

/-- The longest end of a text that is a state. -/
def settle (t : Triggers) : List Char → List Char
  | [] => []
  | c :: u => if t.isState (c :: u) then c :: u else t.settle u

/-- The state after one more character. -/
def step (t : Triggers) (state : List Char) (c : Char) : List Char := t.settle (state ++ [c])

/-- The state after a whole text. -/
def run (t : Triggers) (text : List Char) : List Char := text.foldl t.step []

/-- The first of the longest triggers that end a text. -/
def completed? (t : Triggers) : List Char → Option Nat
  | [] => t.words.findIdx? (· == [])
  | c :: u =>
    match t.words.findIdx? (· == c :: u) with
    | some k => some k
    | none => t.completed? u

/-- The characters that continue some end of a state to a state, in ascending order. -/
def continuations (t : Triggers) (state : List Char) : List Char :=
  let next := fun (u w : List Char) =>
    if u.isPrefixOf w then (w.drop u.length).head?.toList else []
  let ends := (List.range (state.length + 1)).map (state.drop ·)
  let chars := ends.flatMap fun u => t.words.flatMap (next u)
  chars.eraseDups.mergeSort fun a b => a ≤ b

/-- The states and what is known of them. -/
def machine (t : Triggers) : Machine (List Char) where
  start := []
  others := t.states.drop 1
  step := t.step
  completed? := t.completed?
  continuations := t.continuations

variable {t : Triggers} {u v x y : List Char} {c : Char}

/-! ## States -/

theorem isState_iff : t.isState u = true ↔ u = [] ∨ ∃ w ∈ t.words, u <+: w := by
  simp [isState]

@[simp] theorem isState_nil : t.isState [] = true := by simp [isState]

theorem isState_of_mem (h : u ∈ t.words) : t.isState u = true :=
  isState_iff.2 (Or.inr ⟨u, h, List.prefix_rfl⟩)

theorem isState_of_append (h : t.isState (u ++ v) = true) : t.isState u = true := by
  rcases isState_iff.1 h with h | ⟨w, hw, h⟩
  · simp [(List.append_eq_nil_iff.1 h).1]
  · exact isState_iff.2 (Or.inr ⟨w, hw, (List.prefix_append u v).trans h⟩)

theorem mem_beginnings {w : List Char} : u ∈ beginnings w ↔ u <+: w := by
  simp only [beginnings, List.mem_map, List.mem_range]
  constructor
  · rintro ⟨n, -, rfl⟩
    exact List.take_prefix n w
  · intro h
    exact ⟨u.length, Nat.lt_succ_of_le h.length_le, (List.prefix_iff_eq_take.1 h).symm⟩

/-- The states are the beginnings of triggers, and the empty text. -/
theorem mem_states : u ∈ t.states ↔ t.isState u = true := by
  simp [states, isState_iff, mem_beginnings]

/-! ## Texts and their states -/

theorem settle_suffix (x : List Char) : t.settle x <:+ x := by
  induction x with
  | nil => exact List.suffix_rfl
  | cons c x ih =>
    rw [settle]
    split
    · exact List.suffix_rfl
    · exact ih.trans (List.suffix_cons c x)

theorem isState_settle (x : List Char) : t.isState (t.settle x) = true := by
  induction x with
  | nil => exact isState_nil
  | cons c x ih =>
    rw [settle]
    split
    · assumption
    · exact ih

/-- Every end of a text that is a state ends the state that the text leads to. -/
theorem suffix_settle (h : u <:+ x) (hu : t.isState u = true) : u <:+ t.settle x := by
  induction x with
  | nil => exact h
  | cons c x ih =>
    rw [settle]
    split
    · exact h
    · rename_i hnot
      rcases List.suffix_cons_iff.1 h with rfl | h
      · exact absurd hu hnot
      · exact ih h

/-- A state is the longest end that is a state. -/
theorem eq_settle (hx : u <:+ x) (hu : t.isState u = true)
    (h : ∀ v, v <:+ x → t.isState v = true → v <:+ u) : u = t.settle x :=
  (suffix_settle hx hu).eq_of_length_le (h _ (settle_suffix x) (isState_settle x)).length_le

/-- A state and one more character lead where the whole text and the character lead. -/
theorem step_settle (x : List Char) (c : Char) : t.step (t.settle x) c = t.settle (x ++ [c]) := by
  have lift {u v : List Char} (h : u <:+ v) : u ++ [c] <:+ v ++ [c] :=
    (List.suffix_append_inj_of_length_eq rfl).2 ⟨h, rfl⟩
  refine eq_settle ((settle_suffix _).trans (lift (settle_suffix x))) (isState_settle _)
    fun v hv hstate => suffix_settle ?_ hstate
  rcases List.suffix_concat_iff.1 hv with rfl | ⟨v, rfl, hvx⟩
  · exact List.nil_suffix
  · exact lift (suffix_settle hvx (isState_of_append hstate))

/-- The watcher stands in the longest end of what it has read that is a state. -/
theorem run_eq_settle (x : List Char) : t.run x = t.settle x := by
  induction x using List.reverseRecOn with
  | nil => rfl
  | append_singleton x c ih =>
    rw [run, List.foldl_append]
    change t.step (t.run x) c = _
    rw [ih, step_settle]

/-! ## Completed triggers -/

/-- A trigger is the longest one that ends a text. -/
structure LongestEnd (t : Triggers) (x w : List Char) : Prop where
  mem : w ∈ t.words
  suffix : w <:+ x
  length_le : ∀ v ∈ t.words, v <:+ x → v.length ≤ w.length

theorem LongestEnd.unique {v w : List Char} (hv : t.LongestEnd x v) (hw : t.LongestEnd x w) :
    v = w := by
  have hlen : v.length = w.length :=
    Nat.le_antisymm (hw.length_le v hv.mem hv.suffix) (hv.length_le w hw.mem hw.suffix)
  exact (List.suffix_of_suffix_length_le hv.suffix hw.suffix hlen.le).eq_of_length hlen

theorem longestEnd_congr {w : List Char} (h : ∀ v ∈ t.words, v <:+ x ↔ v <:+ y) :
    t.LongestEnd x w ↔ t.LongestEnd y w :=
  ⟨fun hw => ⟨hw.mem, (h w hw.mem).1 hw.suffix, fun v hv hvy => hw.length_le v hv ((h v hv).2 hvy)⟩,
    fun hw => ⟨hw.mem, (h w hw.mem).2 hw.suffix, fun v hv hvx => hw.length_le v hv ((h v hv).1 hvx)⟩⟩

private theorem findIdx?_eq_none {ws : List (List Char)} {w : List Char} :
    ws.findIdx? (· == w) = none ↔ w ∉ ws := by
  rw [List.findIdx?_eq_none_iff]
  simp only [beq_eq_false_iff_ne, ne_eq]
  exact ⟨fun h hw => h w hw rfl, fun h v hv heq => h (heq ▸ hv)⟩

private theorem mem_of_findIdx? {ws : List (List Char)} {w : List Char} {k : Nat}
    (h : ws.findIdx? (· == w) = some k) : w ∈ ws :=
  not_not.1 fun hw => by simp [findIdx?_eq_none.2 hw] at h

/-- A trigger that is not the whole of a text ends it if it ends the text without its first
character. -/
private theorem suffix_tail_iff (h : c :: x ∉ t.words) :
    ∀ w ∈ t.words, w <:+ c :: x ↔ w <:+ x := by
  intro w hw
  rw [List.suffix_cons_iff]
  exact ⟨fun hor => hor.resolve_left fun heq => h (heq ▸ hw), Or.inr⟩

theorem completed?_eq_none : t.completed? x = none ↔ ∀ w ∈ t.words, ¬ w <:+ x := by
  induction x with
  | nil =>
    rw [completed?, findIdx?_eq_none]
    simp only [List.suffix_nil]
    exact ⟨fun h w hw heq => h (heq ▸ hw), fun h hw => h [] hw rfl⟩
  | cons c x ih =>
    rw [completed?]
    split
    · rename_i k hfind
      simp only [reduceCtorEq, false_iff, not_forall, not_not]
      exact ⟨c :: x, mem_of_findIdx? hfind, List.suffix_rfl⟩
    · rename_i hfind
      rw [ih]
      exact forall₂_congr fun w hw =>
        not_congr (suffix_tail_iff (findIdx?_eq_none.1 hfind) w hw).symm

/-- A state completes the longest trigger that ends it, and of equal ones the first. -/
theorem completed?_eq_some {k : Nat} : t.completed? x = some k ↔
    ∃ w, t.LongestEnd x w ∧ t.words.findIdx? (· == w) = some k := by
  have whole {x : List Char} {k : Nat} (h : t.words.findIdx? (· == x) = some k) :
      t.LongestEnd x x := ⟨mem_of_findIdx? h, List.suffix_rfl, fun v _ hv => hv.length_le⟩
  induction x with
  | nil =>
    rw [completed?]
    refine ⟨fun h => ⟨[], whole h, h⟩, ?_⟩
    rintro ⟨w, hw, h⟩
    rwa [List.suffix_nil.1 hw.suffix] at h
  | cons c x ih =>
    rw [completed?]
    split
    · rename_i i hfind
      constructor
      · rintro ⟨⟩
        exact ⟨_, whole hfind, hfind⟩
      · rintro ⟨w, hw, h⟩
        rw [← (whole hfind).unique hw, hfind] at h
        exact h
    · rename_i hfind
      refine ih.trans ?_
      exact exists_congr fun w => and_congr_left fun _ =>
        (longestEnd_congr (suffix_tail_iff (findIdx?_eq_none.1 hfind))).symm

/-- The state alone tells which trigger is completed. -/
theorem completed?_settle (x : List Char) : t.completed? (t.settle x) = t.completed? x := by
  refine Option.ext fun k => ?_
  simp only [completed?_eq_some]
  exact exists_congr fun w => and_congr_left fun _ => longestEnd_congr fun v hv =>
    ⟨fun h => h.trans (settle_suffix x), fun h => suffix_settle h (isState_of_mem hv)⟩

/-! ## Characters that lead on -/

theorem mem_continuations : c ∈ t.continuations u ↔
    ∃ v, v <:+ u ∧ ∃ w ∈ t.words, v ++ [c] <+: w := by
  have next (v w : List Char) :
      c ∈ (if v.isPrefixOf w then (w.drop v.length).head?.toList else []) ↔ v ++ [c] <+: w := by
    constructor
    · intro h
      split at h
      · rename_i hprefix
        obtain ⟨rest, rfl⟩ := List.isPrefixOf_iff_prefix.1 hprefix
        rw [List.drop_left, Option.mem_toList, List.head?_eq_some_iff] at h
        obtain ⟨rest, rfl⟩ := h
        exact ⟨rest, by simp⟩
      · simp at h
    · rintro ⟨rest, rfl⟩
      simp
  have ends (v : List Char) : (∃ n, n < u.length + 1 ∧ u.drop n = v) ↔ v <:+ u := by
    constructor
    · rintro ⟨n, -, rfl⟩
      exact List.drop_suffix n u
    · intro h
      exact ⟨u.length - v.length, by omega, (List.suffix_iff_eq_drop.1 h).symm⟩
  simp only [continuations, List.mem_mergeSort, List.mem_eraseDups, List.mem_flatMap, List.mem_map,
    List.mem_range, ends, next]

/-- Any other character leads back to the start. -/
theorem step_of_notMem (h : c ∉ t.continuations u) : t.step u c = [] := by
  by_contra hne
  rcases List.suffix_concat_iff.1 (settle_suffix (t := t) (u ++ [c])) with hnil | ⟨v, hv, hvu⟩
  · exact hne hnil
  · have hstate := isState_settle (t := t) (u ++ [c])
    rw [hv, isState_iff] at hstate
    rcases hstate with hnil | hw
    · simp at hnil
    · exact h (mem_continuations.2 ⟨v, hvu, hw⟩)

end Triggers

end ConstrainedDecoding.Tag
