import ConstrainedDecoding.Compiled.Payload
import ConstrainedDecoding.Proofs.TokenMask

/-!
# Masks in the order of their use

The masks of a pool are numbered in the order of their first use. Numbers that are given in this way stay
what they are when they are numbered again, and lead to the same masks as the places that they stand for.
-/
namespace ConstrainedDecoding.MaskPool

/-! ## Numbers in order -/

/-- What has a number stands under it in the order. -/
def Numbering.Filed (n : Numbering) : Prop := ∀ i k : Nat, n.numbers[i]? = some k ↔ n.order[k]? = some i

/-- Each number is below `m`, or is the next that is new; `m'` is the next at the end. -/
inductive InOrder : Nat → List Nat → Nat → Prop
  | nil {m} : InOrder m [] m
  | old {m k ks m'} : k < m → InOrder m ks m' → InOrder m (k :: ks) m'
  | new {m ks m'} : InOrder (m + 1) ks m' → InOrder m (m :: ks) m'

theorem InOrder.le {m m' : Nat} {ks : List Nat} (h : InOrder m ks m') : m' ≤ m + ks.length := by
  induction h with
  | nil => exact le_rfl
  | old _ _ ih => exact ih.trans (by simp)
  | new _ ih => exact ih.trans (by simp; omega)

/-- Every number up to the end is given. -/
theorem InOrder.mem {m m' : Nat} {ks : List Nat} (h : InOrder m ks m') :
    ∀ {k : Nat}, m ≤ k → k < m' → k ∈ ks := by
  induction h with
  | nil => exact fun hle hlt => absurd hlt (Nat.not_lt.2 hle)
  | old _ _ ih => exact fun hle hlt => List.mem_cons_of_mem _ (ih hle hlt)
  | new _ ih =>
    intro k hle hlt
    rcases hle.eq_or_lt with rfl | hnext
    exacts [List.mem_cons_self, List.mem_cons_of_mem _ (ih hnext hlt)]

namespace Numbering

variable {n : Numbering} {i : Nat}

theorem filed_empty : Filed ⟨#[], {}⟩ := fun i k => by simp

/-- What has a number keeps it, and what has none gets the next. -/
theorem number_spec (h : n.Filed) (i : Nat) : (number i n).2.Filed ∧
    (number i n).2.order[(number i n).1]? = some i ∧
      ((number i n).1 < n.order.size ∧ (number i n).2 = n ∨
        (number i n).1 = n.order.size ∧ (number i n).2.order = n.order.push i) := by
  unfold number
  split
  · rename_i k hk
    have hk := (h i k).1 hk
    exact ⟨h, hk, Or.inl ⟨(Array.getElem?_eq_some_iff.1 hk).1, rfl⟩⟩
  · rename_i hnone
    refine ⟨fun j k => ?_, by simp, Or.inr ⟨rfl, rfl⟩⟩
    simp only [Std.HashMap.getElem?_insert, Array.getElem?_push]
    by_cases hj : i = j
    · subst hj
      have other : n.order[k]? ≠ some i := fun hk => by simp [(h i k).2 hk] at hnone
      by_cases hk : k = n.order.size <;> simp [hk, other, eq_comm]
    · have : (i == j) = false := by simpa using hj
      simp only [this, Bool.false_eq_true, if_false, h j k]
      by_cases hk : k = n.order.size
      · simp [hk, hj]
      · simp [hk]

/-- Numbers are given in order, and stand for what they are given to. -/
theorem mapM_number_spec (l : List Nat) : ∀ n : Numbering, n.Filed →
    (∀ i k : Nat, n.order[k]? = some i → (l.mapM number n).2.order[k]? = some i) ∧
      List.Forall₂ (fun i k => (l.mapM number n).2.order[k]? = some i) l (l.mapM number n).1 ∧
        InOrder n.order.size (l.mapM number n).1 (l.mapM number n).2.order.size := by
  induction l with
  | nil => exact fun n h => ⟨fun _ _ hk => hk, .nil, .nil⟩
  | cons i l ih =>
    intro n h
    obtain ⟨hfiled, hi, hcases⟩ := number_spec h i
    obtain ⟨hkept, hforall, horder⟩ := ih _ hfiled
    rw [StateM.mapM_cons]
    have kept (j k : Nat) (hk : n.order[k]? = some j) : (number i n).2.order[k]? = some j := by
      rcases hcases with ⟨-, heq⟩ | ⟨-, heq⟩
      · rwa [heq]
      · rw [heq, Array.getElem?_push_lt (Array.getElem?_eq_some_iff.1 hk).1]
        exact (Array.getElem?_eq_getElem _).symm.trans hk
    refine ⟨fun j k hk => hkept j k (kept j k hk), .cons (hkept _ _ hi) hforall, ?_⟩
    rcases hcases with ⟨hlt, heq⟩ | ⟨hnew, heq⟩
    · rw [heq] at horder ⊢
      exact .old hlt horder
    · have size : (number i n).2.order.size = n.order.size + 1 := by rw [heq, Array.size_push]
      rw [size] at horder
      rw [hnew]
      exact .new horder

/-- Numbers that were given in order are given again. -/
theorem mapM_number_of_inOrder {m m' : Nat} {ks : List Nat} (hks : InOrder m ks m') :
    ∀ n : Numbering, n.Filed → n.order = Array.range m →
      (ks.mapM number n).1 = ks ∧ (ks.mapM number n).2.order = Array.range m' := by
  induction hks with
  | nil => exact fun n _ horder => ⟨rfl, horder⟩
  | @old m k ks m' hlt _ ih =>
    intro n h horder
    have known : n.numbers[k]? = some k := (h k k).2 (by simp [horder, hlt])
    have step : number k n = (k, n) := by simp [number, known]
    rw [StateM.mapM_cons, step]
    obtain ⟨hfst, hsnd⟩ := ih n h horder
    exact ⟨congrArg (k :: ·) hfst, hsnd⟩
  | @new m ks m' _ ih =>
    intro n h horder
    have unknown : n.numbers[m]? = none := by
      by_contra hsome
      obtain ⟨j, hj⟩ := Option.ne_none_iff_exists'.1 hsome
      have := (h m j).1 hj
      simp only [horder, Array.getElem?_eq_some_iff, Array.size_range, Array.getElem_range] at this
      obtain ⟨hlt, rfl⟩ := this
      exact absurd hlt (lt_irrefl _)
    have first : (number m n).1 = m := by simp [number, unknown, horder]
    have order : (number m n).2.order = Array.range (m + 1) := by
      simp [number, unknown, horder, Array.range_succ]
    rw [StateM.mapM_cons, first]
    obtain ⟨hfst, hsnd⟩ := ih _ (number_spec h m).1 order
    exact ⟨congrArg (m :: ·) hfst, hsnd⟩

end Numbering

/-! ## Cuts -/

open Compiled (cut)

theorem flatten_cut {ns : List Nat} : ∀ {l : List Nat}, l.length = ns.sum → (cut ns l).flatten = l := by
  induction ns with
  | nil =>
    intro l h
    exact (List.length_eq_zero_iff.1 h).symm
  | cons n ns ih =>
    intro l h
    rw [List.sum_cons] at h
    rw [cut, List.flatten_cons, ih (by rw [List.length_drop]; omega), List.take_append_drop]

theorem map_length_cut {ns : List Nat} : ∀ {l : List Nat}, l.length = ns.sum → (cut ns l).map List.length = ns := by
  induction ns with
  | nil => exact fun _ => rfl
  | cons n ns ih =>
    intro l h
    rw [List.sum_cons] at h
    rw [cut, List.map_cons, ih (by rw [List.length_drop]; omega), List.length_take, Nat.min_eq_left (by omega)]

/-- What goes with a list of lists, one member after the other, is cut into what goes with each list. -/
theorem forall₂_cut {R : Nat → Nat → Prop} {pss : List (List Nat)} : ∀ {ks : List Nat},
    List.Forall₂ R pss.flatten ks → List.Forall₂ (List.Forall₂ R) pss (cut (pss.map List.length) ks) := by
  induction pss with
  | nil => exact fun _ => .nil
  | cons ps pss ih =>
    intro ks h
    rw [List.flatten_cons] at h
    have first := List.forall₂_take ps.length h
    have later := List.forall₂_drop ps.length h
    rw [List.take_left] at first
    rw [List.drop_left] at later
    exact .cons first (ih later)

/-! ## Pools -/

/-- The masks that are used, in the order of their first use, and the numbers in the order of the states. -/
theorem inOrderOfUse_spec (p : MaskPool) : ∃ order : Array Nat,
    p.inOrderOfUse.2 = order.toList.map (p.masks.getD · .empty) ∧
      List.Forall₂ (fun i k => order[k]? = some i) p.flatPlaces p.inOrderOfUse.1 ∧
        InOrder 0 p.inOrderOfUse.1 order.size := by
  obtain ⟨-, hforall, horder⟩ := Numbering.mapM_number_spec p.flatPlaces ⟨#[], {}⟩ Numbering.filed_empty
  exact ⟨_, rfl, hforall, horder⟩

/-- The pool of the masks in use, with their numbers as places for tables of the given sizes. -/
def renumbered (p : MaskPool) (sizes : List Nat) : MaskPool :=
  ⟨p.inOrderOfUse.2.toArray, ((cut sizes p.inOrderOfUse.1).map List.toArray).toArray⟩

section

variable {p : MaskPool} {sizes : List Nat} {r s : Nat}

theorem length_inOrderOfUse (p : MaskPool) : p.inOrderOfUse.1.length = p.flatPlaces.length := by
  obtain ⟨order, -, hforall, -⟩ := p.inOrderOfUse_spec
  exact hforall.length_eq.symm

theorem length_masks_inOrderOfUse_le (p : MaskPool) : p.inOrderOfUse.2.length ≤ p.flatPlaces.length := by
  obtain ⟨order, hmasks, hforall, horder⟩ := p.inOrderOfUse_spec
  simpa [hmasks, hforall.length_eq] using horder.le

/-- Numbers stand for masks in use. -/
theorem lt_of_mem_inOrderOfUse {k : Nat} (h : k ∈ p.inOrderOfUse.1) : k < p.inOrderOfUse.2.length := by
  obtain ⟨order, hmasks, hforall, -⟩ := p.inOrderOfUse_spec
  obtain ⟨i, -, hk⟩ := (exists_of_forall₂ hforall).2 k h
  simpa [hmasks] using (Array.getElem?_eq_some_iff.1 hk).1

/-- What holds of the masks at the places of states holds of the masks in use. -/
theorem forall_inOrderOfUse {P : TokenMask → Prop} (h : ∀ i ∈ p.flatPlaces, P (p.masks.getD i .empty)) :
    ∀ m ∈ p.inOrderOfUse.2, P m := by
  obtain ⟨order, hmasks, hforall, horder⟩ := p.inOrderOfUse_spec
  intro m hm
  rw [hmasks] at hm
  obtain ⟨i, hi, rfl⟩ := List.mem_map.1 hm
  obtain ⟨k, hk⟩ := List.getElem?_of_mem hi
  have hk : order[k]? = some i := by simpa using hk
  obtain ⟨j, hj, hjk⟩ := (exists_of_forall₂ hforall).2 k
    (horder.mem (Nat.zero_le k) (Array.getElem?_eq_some_iff.1 hk).1)
  obtain rfl : j = i := Option.some.inj (hjk.symm.trans hk)
  exact h j hj

theorem flatPlaces_renumbered (h : p.flatPlaces.length = sizes.sum) :
    (p.renumbered sizes).flatPlaces = p.inOrderOfUse.1 := by
  have flatten := flatten_cut (p.length_inOrderOfUse.trans h)
  rw [flatPlaces, renumbered]
  simpa [List.flatMap_map, List.flatMap_id'] using flatten

/-- Masks that were numbered in the order of their use keep their numbers. -/
theorem inOrderOfUse_renumbered (h : p.flatPlaces.length = sizes.sum) :
    (p.renumbered sizes).inOrderOfUse = p.inOrderOfUse := by
  obtain ⟨order, hmasks, -, horder⟩ := p.inOrderOfUse_spec
  obtain ⟨hfst, hsnd⟩ := Numbering.mapM_number_of_inOrder horder ⟨#[], {}⟩ Numbering.filed_empty rfl
  have flat := flatPlaces_renumbered h
  refine Prod.ext ?_ ?_
  · exact (congrArg (fun l => (l.mapM Numbering.number ⟨#[], {}⟩).1) flat).trans hfst
  · change (((p.renumbered sizes).flatPlaces.mapM Numbering.number ⟨#[], {}⟩).2.order.toList.map
      fun i => p.inOrderOfUse.2.toArray.getD i .empty) = _
    rw [flat, hsnd, Array.toList_range]
    have size : p.inOrderOfUse.2.length = order.size := by rw [hmasks, List.length_map, Array.length_toList]
    refine List.ext_getElem (by rw [List.length_map, List.length_range, size]) fun i _ hi => ?_
    simp [Array.getD_eq_getD_getElem?, hi]

/-- The mask of a state of a rule. -/
def maskAt (p : MaskPool) (r s : Nat) : TokenMask :=
  p.masks.getD ((p.places.getD r #[]).getD s p.masks.size) .empty

theorem maskAt_of_none (h : (p.places.getD r #[])[s]? = none) : p.maskAt r s = .empty := by
  have place : (p.places.getD r #[]).getD s p.masks.size = p.masks.size := by
    rw [Array.getD_eq_getD_getElem?, h, Option.getD_none]
  rw [maskAt, place]
  simp

theorem maskAt_of_some {i : Nat} (h : (p.places.getD r #[])[s]? = some i) :
    p.maskAt r s = p.masks.getD i .empty := by
  have place : (p.places.getD r #[]).getD s p.masks.size = i := by
    rw [Array.getD_eq_getD_getElem?, h, Option.getD_some]
  rw [maskAt, place]

/-- A state has the same mask in the renumbered pool. -/
theorem maskAt_renumbered (h : sizes = p.places.toList.map Array.size) (r s : Nat) :
    (p.renumbered sizes).maskAt r s = p.maskAt r s := by
  obtain ⟨order, hmasks, hforall, -⟩ := p.inOrderOfUse_spec
  have cuts : List.Forall₂ (List.Forall₂ fun i k => order[k]? = some i) (p.places.toList.map Array.toList)
      (cut sizes p.inOrderOfUse.1) := by
    have : List.Forall₂ _ (p.places.toList.map Array.toList) _ := forall₂_cut hforall
    rwa [List.map_map, show List.length ∘ Array.toList = Array.size from rfl, ← h] at this
  -- the places of a rule and the numbers that they have become
  have rule : List.Forall₂ (fun i k => order[k]? = some i) (p.places.getD r #[]).toList
      ((p.renumbered sizes).places.getD r #[]).toList := by
    simp only [renumbered, Array.getD_eq_getD_getElem?, List.getElem?_toArray, List.getElem?_map]
    rcases lt_or_ge r p.places.size with hr | hr
    · obtain ⟨ks, hks, hrule⟩ := getElem?_of_forall₂ cuts
        (show (p.places.toList.map Array.toList)[r]? = some p.places[r].toList by simp [hr])
      simpa [hks, hr] using hrule
    · have length := cuts.length_eq
      simp only [List.length_map, Array.length_toList] at length
      simp [hr, List.getElem?_eq_none (length ▸ hr : (cut sizes p.inOrderOfUse.1).length ≤ r)]
  rcases lt_or_ge s (p.places.getD r #[]).size with hs | hs
  · obtain ⟨k, hk, horder⟩ := getElem?_of_forall₂ rule
      (show (p.places.getD r #[]).toList[s]? = some (p.places.getD r #[])[s] by simp)
    rw [maskAt_of_some (i := k) (by simpa using hk), maskAt_of_some (i := (p.places.getD r #[])[s]) (by simp)]
    simp [renumbered, hmasks, Array.getD_eq_getD_getElem?, horder]
  · have length := rule.length_eq
    simp only [Array.length_toList] at length
    rw [maskAt_of_none (Array.getElem?_eq_none (length ▸ hs)), maskAt_of_none (Array.getElem?_eq_none hs)]

end

end ConstrainedDecoding.MaskPool
