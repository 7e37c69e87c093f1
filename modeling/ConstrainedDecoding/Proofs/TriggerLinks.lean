import ConstrainedDecoding.Proofs.Folds
import ConstrainedDecoding.Proofs.TriggerTrees
import Mathlib.Data.List.Perm.Subperm

/-!
# Linking states

The states wait in a queue, from shorter to longer ones, and each is linked before it waits. So when the
children of a state are linked, all states are linked that are not longer than the state, and going along
links from its own link finds the longest end of a child that is a state.
-/
namespace ConstrainedDecoding.Tag

namespace Triggers

variable {t : Triggers} {u v x : List Char} {c : Char} {s r : Nat}

/-- A state has a number. -/
abbrev At (t : Triggers) (s : Nat) (u : List Char) : Prop := t.states[s]? = some u

theorem exists_at (hu : t.isState u = true) : ∃ s, t.At s u :=
  List.mem_iff_getElem?.1 (mem_states.2 hu)

theorem At.isState (h : t.At s u) : t.isState u = true := mem_states.1 (List.mem_of_getElem? h)

theorem nil_notMem_ofStrings {triggers : List String} (h : ∀ w ∈ triggers, w ≠ "") :
    [] ∉ (ofStrings triggers).words := fun hmem => by
  obtain ⟨w, hw, hnil⟩ := List.mem_map.1 hmem
  exact h w hw (String.toList_eq_nil_iff.1 hnil)

theorem completed?_nil (hempty : [] ∉ t.words) : t.completed? [] = none :=
  completed?_eq_none.2 fun _ hw hsuffix => hempty (List.suffix_nil.1 hsuffix ▸ hw)

theorem nodup_states : t.states.Nodup := nodup_eraseDups _

theorem At.inj (h : t.At s u) (h' : t.At r u) : s = r := getElem?_inj_of_nodup nodup_states h h'

theorem At.text_inj (h : t.At s u) (h' : t.At s v) : u = v := Option.some.inj (h.symm.trans h')

/-- There are as many states as a state has beginnings. -/
theorem At.length_lt (h : t.At s u) : u.length < t.states.length := by
  have lengths : (beginnings u).map List.length = List.range (u.length + 1) := by
    rw [beginnings, List.map_map]
    refine (List.map_congr_left fun n hn => ?_).trans (List.map_id _)
    have := List.mem_range.1 hn
    simp only [Function.comp_apply, List.length_take, id_eq]
    omega
  have nodup : (beginnings u).Nodup := .of_map List.length (lengths ▸ List.nodup_range)
  have subset : beginnings u ⊆ t.states := fun v hv => by
    obtain ⟨w, rfl⟩ := mem_beginnings.1 hv
    exact mem_states.2 (isState_of_append h.isState)
  simpa [beginnings, Nat.succ_le_iff] using (List.subperm_of_subset nodup subset).length_le

/-! ## Ends of texts that are states -/

/-- The ends of a text that are states are those of the longest of them. -/
theorem filter_tails_settle (x : List Char) :
    (t.settle x).tails.filter t.isState = x.tails.filter t.isState := by
  induction x with
  | nil => rfl
  | cons c x ih =>
    rw [settle]
    split
    · rfl
    · rename_i hnot
      rw [ih, List.tails_cons, List.filter_cons_of_neg hnot]

theorem filter_tails_of_isState (hu : t.isState u = true) (hne : u ≠ []) :
    u.tails.filter t.isState = u :: (t.settle u.tail).tails.filter t.isState := by
  obtain ⟨c, x, rfl⟩ := List.exists_cons_of_ne_nil hne
  rw [List.tails_cons, List.filter_cons_of_pos hu, List.tail_cons, filter_tails_settle]

/-- A text and a character lead to what lengthens the longest end that the character lengthens. -/
theorem settle_concat (u : List Char) (c : Char) : t.settle (u ++ [c]) =
    ((u.tails.filter t.isState).find? fun v => t.isState (v ++ [c])).elim [] (· ++ [c]) := by
  induction u with
  | nil =>
    cases hc : t.isState [c] <;> simp [settle, hc]
  | cons d u ih =>
    rw [List.cons_append, settle, List.tails_cons]
    split
    · rename_i hstate
      have hu : t.isState (d :: u) = true := isState_of_append hstate
      have hstate : t.isState ((d :: u) ++ [c]) = true := hstate
      rw [List.filter_cons_of_pos hu,
        List.find?_cons_of_pos (p := fun v => t.isState (v ++ [c])) hstate]
      rfl
    · rename_i hnot
      have hnot : ¬ t.isState ((d :: u) ++ [c]) = true := hnot
      rw [ih, List.filter_cons]
      split
      · rw [List.find?_cons_of_neg (p := fun v => t.isState (v ++ [c])) hnot]
      · rfl

end Triggers

namespace Watcher

open Triggers (At)

variable {t : Triggers} {a a' : Watcher} {u v w : List Char} {c : Char} {s r : Nat}

/-! ## Going along links -/

/-- A state is linked to its longest proper end that is a state, and completes the longest trigger that
ends it. -/
structure Linked (t : Triggers) (a : Watcher) (s : Nat) (u : List Char) : Prop where
  link : t.At (a.linkOf s) (t.settle u.tail)
  completed : a.completed? s = t.completed? u

/-- All states up to a length are linked. -/
def LinkedTo (t : Triggers) (a : Watcher) (n : Nat) : Prop :=
  ∀ s u, t.At s u → u.length ≤ n → Linked t a s u

theorem LinkedTo.mono {m n : Nat} (h : LinkedTo t a n) (hmn : m ≤ n) : LinkedTo t a m :=
  fun s u hs hu => h s u hs (hu.trans hmn)

theorem at_zero : t.At s [] ↔ s = 0 := by
  have root : t.At 0 [] := by simp [At, Triggers.states, List.eraseDups_cons]
  exact ⟨fun h => h.inj root, fun h => h ▸ root⟩

/-- The states along links are the ends of the text that are states. -/
theorem follow_spec (steps : Nat) : ∀ {s : Nat} {u : List Char}, t.At s u → LinkedTo t a u.length →
    u.length < steps → List.Forall₂ t.At (a.follow steps s) (u.tails.filter t.isState) := by
  induction steps with
  | zero => exact fun _ _ h => absurd h (Nat.not_lt_zero _)
  | succ steps ih =>
    intro s u hs hlinked hlt
    rw [follow]
    split
    · rename_i hzero
      obtain rfl : u = [] := hs.text_inj (at_zero.2 hzero)
      simpa using hs
    · rename_i hzero
      have hne : u ≠ [] := fun hnil => hzero (at_zero.1 (hnil ▸ hs))
      rw [Triggers.filter_tails_of_isState hs.isState hne]
      have shorter : (t.settle u.tail).length < u.length := by
        have := (Triggers.settle_suffix (t := t) u.tail).length_le
        have := List.length_pos_iff.2 hne
        rw [List.length_tail] at *
        omega
      exact .cons hs (ih (hlinked s u hs le_rfl).link (hlinked.mono shorter.le) (by omega))

/-- The children of a state by a character. -/
theorem lookup_eq_some (htree : IsTree t.states a) (hs : t.At s u) :
    (a.childrenOf s).lookup c = some r ↔ t.At r (u ++ [c]) := htree.lookup_eq_some hs

theorem ends_spec (htree : IsTree t.states a) (hs : t.At s u) (hlinked : LinkedTo t a u.length) :
    List.Forall₂ t.At (a.ends s) (u.tails.filter t.isState) :=
  follow_spec _ hs hlinked (htree.size ▸ hs.length_lt)

/-- The first state that has a child by a character. -/
theorem findSome?_spec (htree : IsTree t.states a) {ss : List Nat} {us : List (List Char)}
    (h : List.Forall₂ t.At ss us) :
    t.At ((ss.findSome? fun e => (a.childrenOf e).lookup c).getD 0)
      ((us.find? fun v => t.isState (v ++ [c])).elim [] (· ++ [c])) := by
  induction h with
  | nil => exact at_zero.2 rfl
  | @cons s u ss us hs _ ih =>
    cases hr : (a.childrenOf s).lookup c with
    | some r =>
      have hr' := (lookup_eq_some htree hs).1 hr
      simpa [hr, hr'.isState] using hr'
    | none =>
      have hnot : t.isState (u ++ [c]) = false := by
        by_contra hstate
        obtain ⟨r, hr'⟩ := Triggers.exists_at (by simpa using hstate)
        simp [(lookup_eq_some htree hs).2 hr'] at hr
      simpa [hr, hnot] using ih

/-- A character leads from a state where it leads from the text. -/
theorem step_spec (htree : IsTree t.states a) (hs : t.At s u) (hlinked : LinkedTo t a u.length)
    (c : Char) : t.At (a.step s c) (t.settle (u ++ [c])) := by
  rw [Triggers.settle_concat]
  exact findSome?_spec htree (ends_spec htree hs hlinked)

/-! ## Linking children -/

/-- A watcher has a tree of some triggers, and each state has a link. -/
structure Shaped (t : Triggers) (a : Watcher) : Prop where
  tree : IsTree t.states a
  links : a.links.size = a.size
  completes : a.completes.size = a.size

/-- Only the links of some states have been changed, and what they complete. -/
structure Kept (changed : List Nat) (a a' : Watcher) : Prop where
  children : a'.children = a.children
  links : a'.links.size = a.links.size
  completes : a'.completes.size = a.completes.size
  linkOf : ∀ s ∉ changed, a'.linkOf s = a.linkOf s
  completed : ∀ s ∉ changed, a'.completed? s = a.completed? s

theorem Kept.refl (a : Watcher) : Kept [] a a := ⟨rfl, rfl, rfl, fun _ _ => rfl, fun _ _ => rfl⟩

theorem Kept.trans {xs ys : List Nat} {a'' : Watcher} (h : Kept xs a a') (h' : Kept ys a' a'') :
    Kept (xs ++ ys) a a'' where
  children := h'.children.trans h.children
  links := h'.links.trans h.links
  completes := h'.completes.trans h.completes
  linkOf s hs := by
    simp only [List.mem_append, not_or] at hs
    exact (h'.linkOf s hs.2).trans (h.linkOf s hs.1)
  completed s hs := by
    simp only [List.mem_append, not_or] at hs
    exact (h'.completed s hs.2).trans (h.completed s hs.1)

theorem Shaped.kept {changed : List Nat} (h : Shaped t a) (hkept : Kept changed a a') : Shaped t a' where
  tree := h.tree.of_children hkept.children
  links := hkept.links.trans (h.links.trans (congrArg Array.size hkept.children.symm))
  completes := hkept.completes.trans (h.completes.trans (congrArg Array.size hkept.children.symm))

theorem Linked.kept {changed : List Nat} (h : Linked t a s u) (hkept : Kept changed a a')
    (hs : s ∉ changed) : Linked t a' s u where
  link := (hkept.linkOf s hs).symm ▸ h.link
  completed := (hkept.completed s hs).trans h.completed

theorem Shaped.lt_size (h : Shaped t a) (hs : t.At s u) : s < a.size :=
  h.tree.size ▸ (List.getElem?_eq_some_iff.1 hs).1

theorem kept_linkChild : Kept [r] a (a.linkChild s (c, r)) where
  children := rfl
  links := by simp [linkChild]
  completes := by simp [linkChild]
  linkOf q hq := by
    have hne : ¬ r = q := fun h => hq (by simp [h])
    simp [linkChild, linkOf, Array.getD_eq_getD_getElem?, hne]
  completed q hq := by
    have hne : ¬ r = q := fun h => hq (by simp [h])
    simp [linkChild, completed?, Array.getD_eq_getD_getElem?, Array.getElem?_modify, hne]

theorem completed?_append_singleton (u : List Char) (c : Char) : t.completed? (u ++ [c]) =
    (t.words.findIdx? (· == u ++ [c]) <|> t.completed? (u ++ [c]).tail) := by
  obtain ⟨d, x, heq⟩ := List.exists_cons_of_ne_nil (l := u ++ [c]) (by simp)
  rw [heq, Triggers.completed?]
  cases t.words.findIdx? (· == d :: x) <;> rfl

/-- The child of a state is linked right if all states are that are not longer than the state. -/
theorem linked_linkChild (h : Shaped t a) (hs : t.At s u) (hne : u ≠ []) (hlinked : LinkedTo t a u.length)
    (hr : t.At r (u ++ [c])) (hname : a.completed? r = t.words.findIdx? (· == u ++ [c])) :
    Linked t (a.linkChild s (c, r)) r (u ++ [c]) := by
  have hzero : s ≠ 0 := fun heq => hne (hs.text_inj (at_zero.2 heq))
  have tail : (u ++ [c]).tail = u.tail ++ [c] := List.tail_append_of_ne_nil hne
  have shorter : (t.settle u.tail).length ≤ u.length :=
    (Triggers.settle_suffix u.tail).length_le.trans (by simp)
  have hlink : t.At (a.step (a.linkOf s) c) (t.settle (u ++ [c]).tail) := by
    rw [tail, ← Triggers.step_settle]
    exact step_spec h.tree (hlinked s u hs le_rfl).link (hlinked.mono shorter) c
  have hcompleted : a.completed? (a.step (a.linkOf s) c) = t.completed? (u ++ [c]).tail := by
    rw [← Triggers.completed?_settle]
    refine (hlinked _ _ hlink ?_).completed
    exact (Triggers.settle_suffix _).length_le.trans (by simp)
  have hlt := h.lt_size hr
  constructor
  · have : (a.linkChild s (c, r)).linkOf r = a.step (a.linkOf s) c := by
      simp [linkChild, linkOf, Array.getD_eq_getD_getElem?, hzero, h.links, hlt]
    exact this.symm ▸ hlink
  · have : (a.linkChild s (c, r)).completed? r =
        (a.completed? r <|> a.completed? (a.step (a.linkOf s) c)) := by
      have hlt : r < a.completes.size := h.completes ▸ hlt
      simp only [linkChild, completed?, Array.getD_eq_getD_getElem?, Array.getElem?_modify, if_true,
        if_neg hzero, Array.getElem?_eq_getElem hlt, Option.map_some, Option.getD_some]
    rw [this, hname, hcompleted, completed?_append_singleton]

/-- All children of a state are linked, one after the other. -/
theorem linked_children (hs : t.At s u) (hne : u ≠ []) (children : List (Char × Nat)) :
    ∀ {a : Watcher}, Shaped t a → LinkedTo t a u.length →
      (∀ p ∈ children, t.At p.2 (u ++ [p.1])) → (children.map (·.2)).Nodup →
      (∀ p ∈ children, a.completed? p.2 = t.words.findIdx? (· == u ++ [p.1])) →
        Kept (children.map (·.2)) a (children.foldl (linkChild s) a) ∧
          ∀ p ∈ children, Linked t (children.foldl (linkChild s) a) p.2 (u ++ [p.1]) := by
  induction children with
  | nil => exact fun _ _ _ _ _ => ⟨.refl _, by simp⟩
  | cons p children ih =>
    intro a h hlinked hat hnodup hnames
    obtain ⟨c, r⟩ := p
    obtain ⟨hr, hat⟩ := List.forall_mem_cons.1 hat
    obtain ⟨hname, hnames⟩ := List.forall_mem_cons.1 hnames
    obtain ⟨hother, hnodup⟩ := List.nodup_cons.1 hnodup
    have hkept : Kept [r] a (a.linkChild s (c, r)) := kept_linkChild
    have hlinkedTo : LinkedTo t (a.linkChild s (c, r)) u.length := fun q v hq hv => by
      refine (hlinked q v hq hv).kept hkept fun hmem => ?_
      obtain rfl := List.mem_singleton.1 hmem
      obtain rfl := hq.text_inj hr
      exact absurd hv (by simp)
    obtain ⟨hrest, hall⟩ := ih (h.kept hkept) hlinkedTo hat hnodup fun p hp => by
      have hne : p.2 ∉ [r] := fun hmem => hother (List.mem_map.2 ⟨p, hp, List.mem_singleton.1 hmem⟩)
      rw [hkept.completed _ hne]
      exact hnames p hp
    refine ⟨hkept.trans hrest, List.forall_mem_cons.2 ⟨?_, hall⟩⟩
    exact (linked_linkChild h hs hne hlinked hr hname).kept hrest hother

/-! ## States in a queue -/

/-- States in the order in which they wait: those that are done, whose children have come to wait, and
those that wait still. They wait from shorter to longer ones. -/
structure Queued (t : Triggers) (done queue : List Nat) : Prop where
  nodup : (done ++ queue).Nodup
  root : 0 ∈ done ++ queue
  inside : ∀ s ∈ done ++ queue, ∃ u, t.At s u
  parent : ∀ s ∈ done ++ queue, ∀ u c, t.At s (u ++ [c]) → ∃ p ∈ done, t.At p u
  child : ∀ p ∈ done, ∀ u c s, t.At p u → t.At s (u ++ [c]) → s ∈ done ++ queue
  order : queue.Pairwise fun s r => ∀ u v, t.At s u → t.At r v →
    u.length ≤ v.length ∧ v.length ≤ u.length + 1

variable {done queue : List Nat}

theorem queued_root (t : Triggers) : Queued t [] [0] where
  nodup := by simp
  root := by simp
  inside s hs := ⟨[], at_zero.2 (List.mem_singleton.1 hs)⟩
  parent s hs u c hu := by
    obtain rfl := List.mem_singleton.1 hs
    simpa using hu.text_inj (at_zero.2 rfl)
  child := by simp
  order := by simp

/-- A state that is not longer than any that waits has come to wait: a beginning of it would wait still
otherwise. -/
theorem Queued.mem_of_length_le (h : Queued t done queue) (u : List Char) : ∀ {s : Nat}, t.At s u →
    (∀ q ∈ queue, ∀ v, t.At q v → u.length ≤ v.length) → s ∈ done ++ queue := by
  induction u using List.reverseRecOn with
  | nil => exact fun hs _ => at_zero.1 hs ▸ h.root
  | append_singleton u c ih =>
    intro s hs hle
    obtain ⟨p, hp⟩ := Triggers.exists_at (Triggers.isState_of_append hs.isState)
    have hmem : p ∈ done ++ queue := ih hp fun q hq v hv =>
      le_trans (by simp) (hle q hq v hv)
    rcases List.mem_append.1 hmem with hdone | hwaits
    · exact h.child p hdone u c s hp hs
    · exact absurd (hle p hwaits u hp) (by simp)

theorem Queued.notMem_done (h : Queued t done (s :: queue)) : s ∉ done :=
  fun hmem => List.disjoint_of_nodup_append h.nodup hmem List.mem_cons_self

/-- The children of the first state that waits have not come to wait. -/
theorem Queued.notMem_of_child (h : Queued t done (s :: queue)) (hs : t.At s u)
    (hr : t.At r (u ++ [c])) : r ∉ done ++ s :: queue := fun hmem => by
  obtain ⟨p, hp, hpu⟩ := h.parent r hmem u c hr
  exact h.notMem_done (hs.inj hpu ▸ hp)

/-- All states that are not longer than the first one that waits have come to wait. -/
theorem Queued.mem_of_le_first (h : Queued t done (s :: queue)) (hs : t.At s u) (hr : t.At r v)
    (hle : v.length ≤ u.length) : r ∈ done ++ s :: queue := by
  refine h.mem_of_length_le v hr fun q hq w hw => hle.trans ?_
  rcases List.mem_cons.1 hq with rfl | hq
  · exact hs.text_inj hw ▸ le_rfl
  · exact ((List.pairwise_cons.1 h.order).1 q hq u w hs hw).1

/-- A turn: the first state that waits is done, and its children come to wait. -/
theorem Queued.turn (h : Queued t done (s :: queue)) (hs : t.At s u) {children : List Nat}
    (hnodup : children.Nodup) (hchildren : ∀ r, r ∈ children ↔ ∃ c, t.At r (u ++ [c])) :
    Queued t (done ++ [s]) (queue ++ children) := by
  obtain ⟨hfirst, horder⟩ := List.pairwise_cons.1 h.order
  have hlength (r : Nat) (hr : r ∈ children) (v : List Char) (hv : t.At r v) :
      v.length = u.length + 1 := by
    obtain ⟨c, hc⟩ := (hchildren r).1 hr
    simp [hv.text_inj hc]
  have all : (done ++ [s]) ++ (queue ++ children) = (done ++ s :: queue) ++ children := by simp
  refine ⟨all ▸ ?_, all ▸ List.mem_append_left _ h.root, all ▸ ?_, all ▸ ?_, all ▸ ?_, ?_⟩
  · refine List.nodup_append.2 ⟨h.nodup, hnodup, fun q hq r hr heq => ?_⟩
    obtain ⟨c, hc⟩ := (hchildren r).1 hr
    exact h.notMem_of_child hs hc (heq ▸ hq)
  · intro r hr
    rcases List.mem_append.1 hr with hr | hr
    · exact h.inside r hr
    · obtain ⟨c, hc⟩ := (hchildren r).1 hr
      exact ⟨_, hc⟩
  · intro r hr v c hv
    rcases List.mem_append.1 hr with hr | hr
    · obtain ⟨q, hq, hqv⟩ := h.parent r hr v c hv
      exact ⟨q, List.mem_append_left _ hq, hqv⟩
    · obtain ⟨d, hd⟩ := (hchildren r).1 hr
      obtain ⟨rfl, -⟩ := List.append_inj' (hv.text_inj hd) rfl
      exact ⟨s, by simp, hs⟩
  · intro q hq v c r hv hr
    rcases List.mem_append.1 hq with hq | hq
    · exact List.mem_append_left _ (h.child q hq v c r hv hr)
    · obtain rfl := List.mem_singleton.1 hq
      obtain rfl := hv.text_inj hs
      exact List.mem_append_right _ ((hchildren r).2 ⟨c, hr⟩)
  · refine List.pairwise_append.2 ⟨horder, List.pairwise_of_forall_mem_list fun q hq r hr v w hv hw => ?_,
      fun q hq r hr v w hv hw => ?_⟩
    · rw [hlength q hq v hv, hlength r hr w hw]
      omega
    · have := hfirst q hq u v hs hv
      rw [hlength r hr w hw]
      omega

/-! ## Linking states in turn -/

theorem mem_map_children (h : IsTree t.states a) (hs : t.At s u) :
    r ∈ (a.childrenOf s).map (·.2) ↔ ∃ c, t.At r (u ++ [c]) := by
  simp only [List.mem_map, Prod.exists, exists_eq_right]
  exact exists_congr fun c => h.mem_children s u hs c r

/-- The children of a state are all different. -/
theorem nodup_children (h : IsTree t.states a) (hs : t.At s u) : ((a.childrenOf s).map (·.2)).Nodup := by
  refine List.pairwise_map.2 ((h.ascending s).imp_of_mem fun {p q} hp hq hlt heq => ?_)
  have heq : p.2 = q.2 := heq
  have hp : t.At p.2 (u ++ [p.1]) := (h.mem_children s u hs p.1 p.2).1 hp
  have hq : t.At q.2 (u ++ [q.1]) := (h.mem_children s u hs q.1 q.2).1 hq
  rw [← heq] at hq
  obtain ⟨-, hchar⟩ := List.append_inj' (hp.text_inj hq) rfl
  obtain ⟨c, r⟩ := p
  obtain rfl : c = q.1 := by simpa using hchar
  exact Std.lt_irrefl hlt

/-- The states that have come to wait are linked, and the others have their names only. -/
structure Spread (t : Triggers) (done queue : List Nat) (a : Watcher) : Prop where
  shape : Shaped t a
  queued : Queued t done queue
  root : 0 ∈ done
  linked : ∀ s ∈ done ++ queue, ∀ u, t.At s u → Linked t a s u
  names : ∀ s ∉ done ++ queue, ∀ u, t.At s u → a.completed? s = t.words.findIdx? (· == u)

theorem Spread.turn (h : Spread t done (s :: queue) a) : Spread t (done ++ [s])
    (queue ++ (a.childrenOf s).map (·.2)) ((a.childrenOf s).foldl (linkChild s) a) := by
  obtain ⟨u, hs⟩ := h.queued.inside s (by simp)
  have htree := h.shape.tree
  have hne : u ≠ [] := fun hnil => h.queued.notMem_done (at_zero.1 (hnil ▸ hs) ▸ h.root)
  have hat (p : Char × Nat) (hp : p ∈ a.childrenOf s) : t.At p.2 (u ++ [p.1]) :=
    (htree.mem_children s u hs p.1 p.2).1 hp
  obtain ⟨hkept, hall⟩ := linked_children hs hne (a.childrenOf s) h.shape
    (fun r v hr hv => h.linked r (h.queued.mem_of_le_first hs hr hv) v hr) hat (nodup_children htree hs)
    fun p hp => h.names p.2 (h.queued.notMem_of_child hs (hat p hp)) _ (hat p hp)
  have all : (done ++ [s]) ++ (queue ++ (a.childrenOf s).map (·.2)) =
      (done ++ s :: queue) ++ (a.childrenOf s).map (·.2) := by simp
  refine ⟨h.shape.kept hkept,
    h.queued.turn hs (nodup_children htree hs) fun r => mem_map_children htree hs,
    List.mem_append_left _ h.root, all ▸ fun r hr v hv => ?_, all ▸ fun r hr v hv => ?_⟩
  · rcases List.mem_append.1 hr with hr | hr
    · refine (h.linked r hr v hv).kept hkept fun hmem => ?_
      obtain ⟨c, hc⟩ := (mem_map_children htree hs).1 hmem
      exact h.queued.notMem_of_child hs hc hr
    · obtain ⟨p, hp, rfl⟩ := List.mem_map.1 hr
      exact hv.text_inj (hat p hp) ▸ hall p hp
  · simp only [List.mem_append (s := done ++ s :: queue), not_or] at hr
    rw [hkept.completed r hr.2]
    exact h.names r hr.1 v hv

/-- Linking goes on until no state waits, as no state is done twice. -/
theorem linkFrom_spec (turns : Nat) : ∀ {done queue : List Nat} {a : Watcher},
    Spread t done queue a → t.states.length < turns + done.length →
      ∃ done', Spread t done' [] (linkFrom turns queue a) := by
  induction turns with
  | zero =>
    intro done queue a h hlt
    have subset : done ⊆ List.range t.states.length := fun s hs => by
      obtain ⟨u, hu⟩ := h.queued.inside s (List.mem_append_left _ hs)
      exact List.mem_range.2 (List.getElem?_eq_some_iff.1 hu).1
    have := (List.subperm_of_subset h.queued.nodup.of_append_left subset).length_le
    rw [List.length_range] at this
    omega
  | succ turns ih =>
    intro done queue a h hlt
    cases queue with
    | nil => exact ⟨done, h⟩
    | cons s queue =>
      rw [linkFrom]
      exact ih h.turn (by simp; omega)

/-- At first the states of a single character wait. They are linked to the empty text. -/
theorem spread_singles (hempty : [] ∉ t.words) (htree : IsTree t.states a)
    (hnames : Names t.states t.words a) : Spread t [0] ((a.childrenOf 0).map (·.2))
      { a with links := Array.replicate a.size 0 } := by
  have root : t.At 0 [] := at_zero.2 rfl
  have linkOf (s : Nat) : linkOf { a with links := Array.replicate a.size 0 } s = 0 := by
    by_cases hs : s < a.size <;> simp [Watcher.linkOf, Array.getD_eq_getD_getElem?, hs]
  refine ⟨⟨htree.of_children rfl, by simp [size], hnames.size.trans htree.size.symm⟩, ?_, by simp,
    fun s hs u hu => ?_, fun s _ u hu => hnames.completed s u hu⟩
  · exact (queued_root t).turn root (nodup_children htree root) fun r => mem_map_children htree root
  · rcases List.mem_cons.1 hs with rfl | hs
    · obtain rfl := hu.text_inj root
      exact ⟨(linkOf 0).symm ▸ root, hnames.completed 0 [] root⟩
    · obtain ⟨c, hc⟩ := (mem_map_children htree root).1 hs
      obtain rfl := hu.text_inj hc
      refine ⟨(linkOf s).symm ▸ root, (hnames.completed s _ hc).trans ?_⟩
      rw [completed?_append_singleton]
      simp [Triggers.completed?_nil hempty]

/-- The watcher for some triggers, none of which is empty, has all states linked. -/
theorem linked_ofTriggers (t : Triggers) (hempty : [] ∉ t.words) :
    Shaped t (ofTriggers t.words) ∧ ∀ s u, t.At s u → Linked t (ofTriggers t.words) s u := by
  obtain ⟨htree, hnames⟩ := tree_spec t
  obtain ⟨done, h⟩ := linkFrom_spec (t.words.zipIdx.foldl addTrigger empty).size
    (spread_singles hempty htree hnames) (by simp [htree.size])
  exact ⟨h.shape, fun s u hs => h.linked s (h.queued.mem_of_length_le u hs (by simp)) u hs⟩

/-! ## What the watcher knows -/

section

variable (hempty : [] ∉ t.words)

include hempty

theorem isTree_ofTriggers : IsTree t.states (ofTriggers t.words) :=
  (linked_ofTriggers t hempty).1.tree

theorem linkedTo_ofTriggers (n : Nat) : LinkedTo t (ofTriggers t.words) n :=
  fun s u hs _ => (linked_ofTriggers t hempty).2 s u hs

/-- The watcher's states follow the texts that they stand for. -/
theorem at_step (hs : t.At s u) (c : Char) : t.At ((ofTriggers t.words).step s c) (t.step u c) :=
  step_spec (isTree_ofTriggers hempty) hs (linkedTo_ofTriggers hempty _) c

theorem at_run (x : List Char) : t.At ((ofTriggers t.words).run x) (t.run x) := by
  induction x using List.reverseRecOn with
  | nil => exact at_zero.2 rfl
  | append_singleton x c ih =>
    rw [run, List.foldl_concat, Triggers.run, List.foldl_concat]
    exact at_step hempty ih c

theorem completed?_at (hs : t.At s u) : (ofTriggers t.words).completed? s = t.completed? u :=
  ((linked_ofTriggers t hempty).2 s u hs).completed

theorem mem_continuations_at (hs : t.At s u) :
    c ∈ (ofTriggers t.words).continuations s ↔ c ∈ t.continuations u := by
  have htree := isTree_ofTriggers hempty
  have hends := exists_of_forall₂ (ends_spec htree hs (linkedTo_ofTriggers hempty _))
  have leads : c ∈ (ofTriggers t.words).continuations s ↔
      ∃ e ∈ (ofTriggers t.words).ends s, ∃ r, (c, r) ∈ (ofTriggers t.words).childrenOf e := by
    simp [continuations]
  rw [leads, Triggers.mem_continuations]
  constructor
  · rintro ⟨e, he, r, hr⟩
    obtain ⟨v, hv, hev⟩ := hends.1 e he
    obtain ⟨hvu, -⟩ := List.mem_filter.1 hv
    have hr : t.At r (v ++ [c]) := (htree.mem_children e v hev c r).1 hr
    exact ⟨v, (List.mem_tails v u).1 hvu,
      (Triggers.isState_iff.1 hr.isState).resolve_left (by simp)⟩
  · rintro ⟨v, hv, hw⟩
    have hstate : t.isState (v ++ [c]) = true := Triggers.isState_iff.2 (Or.inr hw)
    obtain ⟨e, he, hev⟩ := hends.2 v (List.mem_filter.2
      ⟨(List.mem_tails v u).2 hv, Triggers.isState_of_append hstate⟩)
    obtain ⟨r, hr⟩ := Triggers.exists_at hstate
    exact ⟨e, he, r, (htree.mem_children e v hev c r).2 hr⟩

/-- Just the other characters lead back to the start. -/
theorem mem_continuations_iff_step (hs : s < (ofTriggers t.words).size) :
    c ∈ (ofTriggers t.words).continuations s ↔ (ofTriggers t.words).step s c ≠ 0 := by
  obtain ⟨u, hu⟩ : ∃ u, t.At s u := by
    rw [(isTree_ofTriggers hempty).size] at hs
    exact ⟨_, List.getElem?_eq_getElem hs⟩
  have hstep := at_step hempty hu c
  rw [mem_continuations_at hempty hu]
  constructor
  · intro hc hzero
    obtain ⟨v, hv, hw⟩ := Triggers.mem_continuations.1 hc
    have hsuffix : v ++ [c] <:+ t.step u c := Triggers.suffix_settle
      ((List.suffix_append_inj_of_length_eq rfl).2 ⟨hv, rfl⟩) (Triggers.isState_iff.2 (Or.inr hw))
    have hnil : t.step u c = [] := At.text_inj (hzero ▸ hstep) (at_zero.2 rfl)
    rw [hnil, List.suffix_nil] at hsuffix
    simp at hsuffix
  · intro hne
    by_contra hc
    rw [Triggers.step_of_notMem hc] at hstep
    exact hne (at_zero.1 hstep)

end

/-! ## Paths of states -/

/-- The state at the end of a path from the first one, from children to children. -/
def walk? (a : Watcher) (path : List Char) : Option Nat :=
  path.foldlM (fun s c => (a.childrenOf s).lookup c) 0

theorem walk?_eq_some (h : IsTree t.states a) : ∀ {u : List Char} {s : Nat},
    a.walk? u = some s ↔ t.At s u := by
  intro u
  induction u using List.reverseRecOn with
  | nil =>
    intro s
    rw [at_zero]
    simp [walk?, eq_comm]
  | append_singleton u c ih =>
    intro s
    have split : a.walk? (u ++ [c]) = (a.walk? u).bind fun p => (a.childrenOf p).lookup c := by
      simp [walk?, List.foldlM_append]
    rw [split, Option.bind_eq_some_iff]
    constructor
    · rintro ⟨p, hp, hs⟩
      exact (lookup_eq_some h (ih.1 hp)).1 hs
    · intro hs
      obtain ⟨p, hp⟩ := Triggers.exists_at (Triggers.isState_of_append hs.isState)
      exact ⟨p, ih.2 hp, (lookup_eq_some h hp).2 hs⟩

theorem findIdx?_toList {triggers : List String} {w : String} {k : Nat} :
    (triggers.map String.toList).findIdx? (· == w.toList) = some k ↔
      triggers[k]? = some w ∧ ∀ i < k, triggers[i]? ≠ some w := by
  rw [List.findIdx?_map, List.findIdx?_eq_some_iff_getElem, List.getElem?_eq_some_iff]
  simp only [Function.comp_apply, beq_iff_eq, String.toList_inj]
  constructor
  · rintro ⟨hk, heq, hfirst⟩
    refine ⟨⟨hk, heq⟩, fun i hi hw => hfirst i hi ?_⟩
    simpa [hi.trans hk] using hw
  · rintro ⟨⟨hk, heq⟩, hfirst⟩
    exact ⟨hk, heq, fun i hi hw => hfirst i hi (by simpa [hi.trans hk] using hw)⟩

/-- A text is a prefix of some trigger, or empty. -/
def Begins (triggers : List String) (u : List Char) : Prop := u = [] ∨ ∃ w ∈ triggers, u <+: w.toList

/-- A watcher watches for some triggers. It has one state for each prefix of a trigger, and one for the
empty text. After any text it stands where the longest end of the text is that has a state, and this state
completes the first of the longest triggers that end the text, if any does. From any state, just its
continuations lead to others than the empty text. -/
structure Watches (triggers : List String) (a : Watcher) : Prop where
  path : ∀ s < a.size, ∃! u, a.walk? u = some s
  begins : ∀ u, (∃ s, a.walk? u = some s) ↔ Begins triggers u
  longest : ∀ x, ∃ u, a.walk? u = some (a.run x) ∧ u <:+ x ∧
    ∀ v, v <:+ x → Begins triggers v → v.length ≤ u.length
  completed : ∀ x k, a.completed? (a.run x) = some k ↔ ∃ w, triggers[k]? = some w ∧ w.toList <:+ x ∧
    (∀ v ∈ triggers, v.toList <:+ x → v.length ≤ w.length) ∧ ∀ i < k, triggers[i]? ≠ some w
  leads : ∀ s < a.size, ∀ c, c ∈ a.continuations s ↔ a.step s c ≠ 0

/-- The watcher for triggers, none of which is empty, watches for them. -/
theorem watches_ofTriggers {triggers : List String} (h : ∀ w ∈ triggers, w ≠ "") :
    Watches triggers (ofTriggers (triggers.map String.toList)) := by
  let a := ofTriggers (triggers.map String.toList)
  let t := Triggers.ofStrings triggers
  have hempty : [] ∉ t.words := Triggers.nil_notMem_ofStrings h
  have htree : IsTree t.states a := isTree_ofTriggers hempty
  have begins (u : List Char) : t.isState u = true ↔ Begins triggers u := by
    simp [Triggers.isState_iff, Begins, t, Triggers.ofStrings]
  refine ⟨fun s hs => ?_, fun u => ?_, fun x => ?_, fun x k => ?_, fun s hs c =>
    mem_continuations_iff_step hempty hs⟩
  · have hu : t.At s _ := List.getElem?_eq_getElem (htree.size ▸ hs)
    exact ⟨_, (walk?_eq_some htree).2 hu, fun v hv => ((walk?_eq_some htree).1 hv).text_inj hu⟩
  · rw [← begins]
    exact ⟨fun ⟨s, hs⟩ => ((walk?_eq_some htree).1 hs).isState,
      fun hu => (Triggers.exists_at hu).imp fun s => (walk?_eq_some htree).2⟩
  · refine ⟨t.settle x, (walk?_eq_some htree).2 ?_, Triggers.settle_suffix x, fun v hv hbegins =>
      (Triggers.suffix_settle hv ((begins v).2 hbegins)).length_le⟩
    exact Triggers.run_eq_settle x ▸ at_run hempty x
  · have completed : a.completed? (a.run x) = t.completed? x := by
      refine (completed?_at hempty (at_run hempty x)).trans ?_
      rw [Triggers.run_eq_settle, Triggers.completed?_settle]
    rw [completed, Triggers.completed?_eq_some]
    constructor
    · rintro ⟨_, hlongest, hk⟩
      obtain ⟨w, -, rfl⟩ := List.mem_map.1 hlongest.mem
      obtain ⟨hw, hfirst⟩ := findIdx?_toList.1 hk
      exact ⟨w, hw, hlongest.suffix, fun v hv hsuffix =>
        hlongest.length_le _ (List.mem_map_of_mem hv) hsuffix, hfirst⟩
    · rintro ⟨w, hw, hsuffix, hlongest, hfirst⟩
      refine ⟨w.toList, ⟨List.mem_map_of_mem (List.mem_of_getElem? hw), hsuffix, fun _ hv hvx => ?_⟩,
        findIdx?_toList.2 ⟨hw, hfirst⟩⟩
      obtain ⟨v, hmem, rfl⟩ := List.mem_map.1 hv
      exact hlongest v hmem hvx

/-- When `d` follows `ab`, the watcher goes on from `b`, and completes the second trigger. -/
theorem abcOrBd_watches : (∀ w ∈ ["abc", "bd"], w ≠ "") ∧
    let a := ofTriggers (["abc", "bd"].map String.toList)
    a.completed? (a.run "abd".toList) = some 1 ∧ 'd' ∈ a.continuations (a.run "ab".toList) ∧
      'e' ∉ a.continuations (a.run "ab".toList) := by
  have h : ∀ w ∈ ["abc", "bd"], w ≠ "" := by decide
  have hwatches := watches_ofTriggers h
  have inside : (ofTriggers (["abc", "bd"].map String.toList)).run "ab".toList <
      (ofTriggers (["abc", "bd"].map String.toList)).size := by decide +kernel
  refine ⟨h, ?_, ?_, ?_⟩
  · exact (hwatches.completed _ 1).2 ⟨"bd", rfl, by decide +kernel, by decide +kernel, by decide +kernel⟩
  · exact (hwatches.leads _ inside 'd').2 (by decide +kernel)
  · exact fun he => (hwatches.leads _ inside 'e').1 he (by decide +kernel)

end Watcher

end ConstrainedDecoding.Tag
