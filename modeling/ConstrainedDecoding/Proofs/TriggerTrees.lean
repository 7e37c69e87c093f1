import ConstrainedDecoding.Proofs.Watching
import Mathlib.Data.List.Infix
import Mathlib.Data.List.Nodup

/-!
# Trees of triggers

The watcher's states are numbered in the order in which beginnings of triggers appear, and a character
leads from a state to the state that it lengthens it to.
-/
namespace ConstrainedDecoding.Tag

/-! ## Lists without repetitions -/

section

variable {α : Type} {x y : α} {xs ys : List α}

theorem getElem?_inj_of_nodup (h : xs.Nodup) {i j : Nat} (hi : xs[i]? = some x)
    (hj : xs[j]? = some x) : i = j :=
  (List.getElem?_inj (List.getElem?_eq_some_iff.1 hi).1 h).1 (hi.trans hj.symm)

theorem getElem?_concat_eq_some {i : Nat} :
    (xs ++ [x])[i]? = some y ↔ xs[i]? = some y ∨ i = xs.length ∧ x = y := by
  rcases Nat.lt_trichotomy i xs.length with hlt | rfl | hgt
  · simp [List.getElem?_append_left hlt, hlt.ne]
  · simp
  · have hout : (xs ++ [x])[i]? = none :=
      List.getElem?_eq_none (by simpa using Nat.succ_le_of_lt hgt)
    simp [hout, hgt.ne', hgt.le]

variable [BEq α] [LawfulBEq α]

/-- Puts an element at the end of a list, unless it is there. -/
def addNew (xs : List α) (x : α) : List α := if x ∈ xs then xs else xs ++ [x]

theorem eraseDups_concat : (xs ++ [x]).eraseDups = addNew xs.eraseDups x := by
  rw [List.eraseDups_append, addNew]
  by_cases hx : x ∈ xs <;> simp [List.removeAll, hx, List.eraseDups_cons]

theorem eraseDups_append_eq_foldl (ys : List α) :
    (xs ++ ys).eraseDups = ys.foldl addNew xs.eraseDups := by
  induction ys using List.reverseRecOn with
  | nil => simp
  | append_singleton ys y ih => rw [← List.append_assoc, eraseDups_concat, ih, List.foldl_concat]

theorem nodup_addNew (h : xs.Nodup) : (addNew xs x).Nodup := by
  rw [addNew]
  split
  · exact h
  · rename_i hx
    exact List.nodup_append.2 ⟨h, by simp, fun y hy z hz heq =>
      hx (List.mem_singleton.1 hz ▸ heq ▸ hy)⟩

theorem nodup_eraseDups (xs : List α) : xs.eraseDups.Nodup := by
  induction xs using List.reverseRecOn with
  | nil => simp
  | append_singleton xs x ih =>
    rw [eraseDups_concat]
    exact nodup_addNew ih

end

/-! ## Children -/

namespace Watcher

variable {a : Watcher} {c d : Char} {s r : Nat} {l : List (Char × Nat)}

theorem mem_putChild {p : Char × Nat} : p ∈ putChild c s l ↔ p = (c, s) ∨ p ∈ l := by
  induction l with
  | nil => simp [putChild]
  | cons q l ih =>
    obtain ⟨d, r⟩ := q
    rw [putChild]
    split
    · simp
    · simp [ih, or_left_comm]

/-- The characters of children ascend. -/
abbrev Ascending (l : List (Char × Nat)) : Prop := l.Pairwise fun p q => p.1 < q.1

theorem Ascending.putChild (h : Ascending l) (hc : ∀ r, (c, r) ∉ l) : Ascending (putChild c s l) := by
  induction l with
  | nil => simp [Watcher.putChild]
  | cons q l ih =>
    obtain ⟨d, r⟩ := q
    obtain ⟨hd, hl⟩ := List.pairwise_cons.1 h
    have ne : c ≠ d := fun heq => hc r (by simp [heq])
    rw [Watcher.putChild]
    split
    · rename_i hlt
      exact List.pairwise_cons.2 ⟨List.forall_mem_cons.2 ⟨hlt, fun p hp => Std.lt_trans hlt (hd p hp)⟩, h⟩
    · rename_i hnot
      refine List.pairwise_cons.2 ⟨fun p hp => ?_, ih hl fun r hr => hc r (List.mem_cons_of_mem _ hr)⟩
      rcases mem_putChild.1 hp with rfl | hp
      · exact ((Std.lt_trichotomy c d).resolve_left hnot).resolve_left ne
      · exact hd p hp

theorem Ascending.lookup_eq_some (h : Ascending l) : l.lookup c = some r ↔ (c, r) ∈ l := by
  induction l with
  | nil => simp
  | cons q l ih =>
    obtain ⟨d, s⟩ := q
    obtain ⟨hd, hl⟩ := List.pairwise_cons.1 h
    rw [List.lookup_cons]
    by_cases heq : c = d
    · subst heq
      have : (c, r) ∉ l := fun hmem => Std.lt_irrefl (hd (c, r) hmem)
      simp [this, eq_comm]
    · have hne : (c == d) = false := by simpa using heq
      simp [hne, heq, ih hl]

/-! ## Trees -/

/-- A watcher's states stand for some texts, each for one, and the children of a state for the texts
among these that are one character longer. -/
structure IsTree (texts : List (List Char)) (a : Watcher) : Prop where
  size : a.size = texts.length
  root : texts[0]? = some []
  nodup : texts.Nodup
  closed : ∀ u c, u ++ [c] ∈ texts → u ∈ texts
  mem_children : ∀ s u, texts[s]? = some u → ∀ c r,
    (c, r) ∈ a.childrenOf s ↔ texts[r]? = some (u ++ [c])
  ascending : ∀ s, Ascending (a.childrenOf s)

/-- A state of a watcher completes the first trigger that is its text. -/
structure Names (texts : List (List Char)) (words : List (List Char)) (a : Watcher) : Prop where
  size : a.completes.size = texts.length
  mem : ∀ w ∈ words, w ∈ texts
  completed : ∀ s u, texts[s]? = some u → a.completed? s = words.findIdx? (· == u)

section

variable {texts words : List (List Char)} {u v w : List Char}

theorem IsTree.lookup_eq_some (h : IsTree texts a) (hs : texts[s]? = some u) :
    (a.childrenOf s).lookup c = some r ↔ texts[r]? = some (u ++ [c]) :=
  (h.ascending s).lookup_eq_some.trans (h.mem_children s u hs c r)

/-- The tree is all in the children. -/
theorem IsTree.of_children {a' : Watcher} (h : IsTree texts a) (heq : a'.children = a.children) :
    IsTree texts a' := by
  have children (s : Nat) : a'.childrenOf s = a.childrenOf s := by rw [childrenOf, heq, childrenOf]
  exact ⟨(congrArg Array.size heq).trans h.size, h.root, h.nodup, h.closed,
    fun s u hs c r => by rw [children, h.mem_children s u hs],
    fun s => (children s).symm ▸ h.ascending s⟩

theorem isTree_empty : IsTree [[]] empty where
  size := rfl
  root := rfl
  nodup := by simp
  closed := by simp
  mem_children s u hs c r := by
    obtain ⟨rfl, rfl⟩ : s = 0 ∧ u = [] := by
      rcases s with - | s <;> simp_all
    rcases r with - | r <;> simp [empty, childrenOf]
  ascending s := by
    rcases s with - | s <;> simp [empty, childrenOf]

theorem names_empty : Names [[]] [] empty where
  size := rfl
  mem := by simp
  completed s u hs := by
    rcases s with - | s <;> simp_all [empty, completed?]

theorem childrenOf_grow (hs : s < a.size) {completes : Array (Option Nat)} (r : Nat) :
    childrenOf { a with children := (a.children.push []).modify s (putChild c a.size), completes } r =
      if r = s then putChild c a.size (a.childrenOf s) else a.childrenOf r := by
  simp only [childrenOf, Array.getD_eq_getD_getElem?, Array.getElem?_modify, Array.getElem?_push]
  split
  · rename_i heq
    subst heq
    have hs : s < a.children.size := hs
    simp [hs, hs.ne]
  · rename_i hne
    rw [if_neg (Ne.symm hne)]
    split
    · rename_i heq
      simp [heq]
    · rfl

/-- A new state lengthens another one by a character. -/
theorem IsTree.grow (h : IsTree texts a) (hs : texts[s]? = some u) (hnew : u ++ [c] ∉ texts)
    {completes : Array (Option Nat)} : IsTree (texts ++ [u ++ [c]])
      { a with children := (a.children.push []).modify s (putChild c a.size), completes } := by
  have hlt : s < a.size := h.size ▸ (List.getElem?_eq_some_iff.1 hs).1
  refine ⟨by simp [Watcher.size, ← h.size], ?_, ?_, fun v d hv => ?_, fun r v hr d q => ?_, fun r => ?_⟩
  · exact getElem?_concat_eq_some.2 (Or.inl h.root)
  · exact List.nodup_append.2 ⟨h.nodup, by simp, fun v hv w hw heq =>
      hnew (List.mem_singleton.1 hw ▸ heq ▸ hv)⟩
  · refine List.mem_append_left _ ?_
    rcases List.mem_append.1 hv with hv | hv
    · exact h.closed v d hv
    · obtain ⟨rfl, -⟩ := List.append_inj' (List.mem_singleton.1 hv) rfl
      exact List.mem_of_getElem? hs
  · rw [childrenOf_grow hlt, getElem?_concat_eq_some]
    rcases getElem?_concat_eq_some.1 hr with hr | ⟨rfl, rfl⟩
    · split
      · rename_i heq
        subst heq
        obtain rfl := Option.some.inj (hs.symm.trans hr)
        rw [mem_putChild, h.mem_children _ _ hr, or_comm, Prod.mk.injEq, h.size]
        simp [and_comm, eq_comm]
      · rename_i hne
        rw [h.mem_children _ _ hr]
        refine (or_iff_left fun ⟨_, heq⟩ => hne ?_).symm
        obtain ⟨rfl, -⟩ := List.append_inj' heq rfl
        exact getElem?_inj_of_nodup h.nodup hr hs
    · -- no text goes on from the new one yet
      rw [if_neg (h.size ▸ hlt.ne')]
      have none : a.childrenOf texts.length = [] := by
        have : a.children.size ≤ texts.length := h.size.le
        simp [childrenOf, Array.getD_eq_getD_getElem?, this]
      rw [none]
      refine iff_of_false (by simp) ?_
      rintro (hmem | ⟨-, heq⟩)
      · exact hnew (h.closed _ d (List.mem_of_getElem? hmem))
      · simp at heq
  · rw [childrenOf_grow hlt]
    split
    · exact (h.ascending s).putChild fun r hr =>
        hnew (List.mem_of_getElem? ((h.mem_children s u hs c r).1 hr))
    · exact h.ascending r

theorem Names.grow (h : Names texts words a) (hnew : v ∉ texts) {children : Array (List (Char × Nat))} :
    Names (texts ++ [v]) words { a with children, completes := a.completes.push none } where
  size := by simp [h.size]
  mem w hw := List.mem_append_left _ (h.mem w hw)
  completed r u hr := by
    rw [completed?, Array.getD_eq_getD_getElem?, Array.getElem?_push]
    rcases getElem?_concat_eq_some.1 hr with hr | ⟨rfl, rfl⟩
    · have hlt : r < texts.length := (List.getElem?_eq_some_iff.1 hr).1
      rw [if_neg (by simpa [h.size] using hlt.ne), ← Array.getD_eq_getD_getElem?]
      exact h.completed r u hr
    · rw [if_pos h.size.symm]
      refine (List.findIdx?_eq_none_iff.2 fun w hw => ?_).symm
      simpa using fun heq : w = v => hnew (heq ▸ h.mem w hw)

/-- The beginnings of a longer text that are longer than the text itself. -/
def longer (u : List Char) : List Char → List (List Char)
  | [] => []
  | c :: w => (u ++ [c]) :: longer (u ++ [c]) w

theorem map_beginnings (w : List Char) : ∀ u : List Char,
    (Triggers.beginnings w).map (u ++ ·) = u :: longer u w := by
  induction w with
  | nil => simp [Triggers.beginnings, longer]
  | cons c w ih =>
    intro u
    rw [longer, ← ih]
    simp [Triggers.beginnings, List.range_succ_eq_map, Function.comp_def]

theorem beginnings_eq (w : List Char) : Triggers.beginnings w = [] :: longer [] w := by
  simpa using map_beginnings w []

/-- Going along a text adds what is missing of it, and ends where the text is. -/
theorem extend_spec (w : List Char) : ∀ {a : Watcher} {texts : List (List Char)} {s : Nat}
    {u : List Char}, IsTree texts a → Names texts words a → texts[s]? = some u →
      let texts' := (longer u w).foldl addNew texts
      IsTree texts' (a.extend s w).2 ∧ Names texts' words (a.extend s w).2 ∧
        texts'[(a.extend s w).1]? = some (u ++ w) := by
  induction w with
  | nil =>
    intro a texts s u h hnames hs
    simpa [longer, extend] using ⟨h, hnames, hs⟩
  | cons c w ih =>
    intro a texts s u h hnames hs
    rw [longer, List.foldl_cons, extend]
    split
    · rename_i next hnext
      have hnext := (h.lookup_eq_some hs).1 hnext
      rw [addNew, if_pos (List.mem_of_getElem? hnext)]
      simpa using ih h hnames hnext
    · rename_i hnone
      have hnew : u ++ [c] ∉ texts := fun hmem => by
        obtain ⟨r, hr⟩ := List.mem_iff_getElem?.1 hmem
        simp [(h.lookup_eq_some hs).2 hr] at hnone
      rw [addNew, if_neg hnew]
      simpa using ih (h.grow hs hnew) (hnames.grow hnew) (s := a.size)
        (getElem?_concat_eq_some.2 (Or.inr ⟨h.size, rfl⟩))

/-- A trigger is named where its text is, unless an equal one has been before. -/
theorem Names.name (h : Names texts words a) (hnodup : texts.Nodup) (hs : texts[s]? = some w) :
    Names texts (words ++ [w])
      { a with completes := a.completes.modify s fun k? => k? <|> some words.length } where
  size := by simp [h.size]
  mem v hv := by
    rcases List.mem_append.1 hv with hv | hv
    · exact h.mem v hv
    · exact List.mem_singleton.1 hv ▸ List.mem_of_getElem? hs
  completed r u hr := by
    have hlt : r < a.completes.size := h.size ▸ (List.getElem?_eq_some_iff.1 hr).1
    have old := h.completed r u hr
    simp only [completed?, Array.getD_eq_getD_getElem?, Array.getElem?_modify,
      Array.getElem?_eq_getElem hlt, Option.getD_some] at old ⊢
    rw [List.findIdx?_append, ← old]
    by_cases heq : s = r
    · subst heq
      obtain rfl := Option.some.inj (hs.symm.trans hr)
      cases a.completes[s] <;> simp
    · have hne : ¬ w = u := fun hw => heq (getElem?_inj_of_nodup hnodup hs (hw ▸ hr))
      simp [heq, hne]

theorem addTrigger_spec (h : IsTree texts a) (hnames : Names texts words a) (w : List Char) :
    let texts' := (Triggers.beginnings w).foldl addNew texts
    IsTree texts' (a.addTrigger (w, words.length)) ∧
      Names texts' (words ++ [w]) (a.addTrigger (w, words.length)) := by
  obtain ⟨htree, hnames, hs⟩ := extend_spec w h hnames h.root
  have root : addNew texts [] = texts := if_pos (List.mem_of_getElem? h.root)
  rw [beginnings_eq, List.foldl_cons, root]
  exact ⟨htree.of_children rfl, hnames.name htree.nodup hs⟩

/-- The tree of some triggers. -/
theorem tree_spec (t : Triggers) : IsTree t.states (t.words.zipIdx.foldl addTrigger empty) ∧
    Names t.states t.words (t.words.zipIdx.foldl addTrigger empty) := by
  have rest (ws : List (List Char)) : ∀ {a : Watcher} {texts words : List (List Char)},
      IsTree texts a → Names texts words a →
        let texts' := (ws.flatMap Triggers.beginnings).foldl addNew texts
        IsTree texts' ((ws.zipIdx words.length).foldl addTrigger a) ∧
          Names texts' (words ++ ws) ((ws.zipIdx words.length).foldl addTrigger a) := by
    induction ws with
    | nil => exact fun h hnames => ⟨h, by simpa using hnames⟩
    | cons w ws ih =>
      intro a texts words h hnames
      obtain ⟨htree, hnames⟩ := addTrigger_spec h hnames w
      simpa using ih htree hnames
  have states : t.states = (t.words.flatMap Triggers.beginnings).foldl addNew [[]] := by
    rw [Triggers.states, ← List.singleton_append, eraseDups_append_eq_foldl]
    rfl
  rw [states]
  exact rest t.words isTree_empty names_empty

end

end Watcher

end ConstrainedDecoding.Tag
