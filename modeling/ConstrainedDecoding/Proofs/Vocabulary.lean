import ConstrainedDecoding.Proofs.Folds
import ConstrainedDecoding.Vocabulary.Basic
import Mathlib.Data.List.Infix
import Mathlib.Tactic.Set
import Mathlib.Tactic.Tauto

/-!
# Tokens in order

The tokens that can be matched are those that are neither special nor known to end a text, and each
of them has bytes. Runs of tokens are found in one pass that keeps the open runs nested, so that the
runs a token does not continue are on top.
-/
namespace ConstrainedDecoding.Vocabulary

/-! ## Runs -/

/-- The run that starts at a place ends at another: the byte strings in between start with the one
at the place, and the one at the end does not. -/
structure RunEnds (entry : Nat → Bytes) (i e : Nat) : Prop where
  lt : i < e
  starts : ∀ j, i < j → j < e → entry i <+: entry j
  stops : ¬ entry i <+: entry e

/-- What holds when the byte strings before a place have been passed: the open runs are nested, and
the ends of the others are known. -/
structure Passed (entry : Nat → Bytes) (i : Nat) (runs : List Nat) (ends : Array Nat) : Prop where
  nested : runs.Pairwise fun a b => b < a ∧ entry b <+: entry a
  opened : ∀ r ∈ runs, r < i ∧ ∀ j, r < j → j < i → entry r <+: entry j
  pending : ∀ r < ends.size, r ∈ runs ∨ i ≤ r → ends.getD r 0 = ends.size
  closed : ∀ r < i, r ∉ runs → RunEnds entry r (ends.getD r 0) ∧ ends.getD r 0 < ends.size

variable {entry : Nat → Bytes}

/-- A run that ends at the next byte string is closed. -/
private theorem Passed.close {i top : Nat} {runs : List Nat} {ends : Array Nat} (hi : i < ends.size)
    (h : Passed entry i (top :: runs) ends) (stops : ¬ entry top <+: entry i) :
    Passed entry i runs (ends.set! top i) := by
  obtain ⟨above, nested⟩ := List.pairwise_cons.1 h.nested
  obtain ⟨htop, starts⟩ := h.opened top List.mem_cons_self
  have getD_top : (ends.set! top i).getD top 0 = i := by
    simp [Array.getD_eq_getD_getElem?, show top < ends.size by omega]
  have getD_other {r : Nat} (hr : r ≠ top) : (ends.set! top i).getD r 0 = ends.getD r 0 := by
    simp [Array.getD_eq_getD_getElem?, hr.symm]
  have size : (ends.set! top i).size = ends.size := by simp
  refine ⟨nested, fun r hr => h.opened r (List.mem_cons_of_mem _ hr), fun r hr hpending => ?_,
    fun r hr hnot => ?_⟩
  · have hne : r ≠ top := by
      rcases hpending with hr | hr
      exacts [(above r hr).1.ne, by omega]
    rw [getD_other hne, size]
    exact h.pending r (size ▸ hr) (hpending.imp_left (List.mem_cons_of_mem _))
  · rw [size]
    by_cases hne : r = top
    · subst hne
      rw [getD_top]
      exact ⟨⟨htop, starts, stops⟩, hi⟩
    · rw [getD_other hne]
      exact h.closed r hr (by simp [hne, hnot])

/-- Closing the runs that the next byte string does not continue leaves those that it continues. -/
private theorem closeRuns_spec {i : Nat} (runs : List Nat) :
    ∀ {ends : Array Nat}, i < ends.size → Passed entry i runs ends →
      let r := closeRuns entry i (entry i) runs ends
      r.2.size = ends.size ∧ Passed entry i r.1 r.2 ∧ ∀ run ∈ r.1, entry run <+: entry i := by
  induction runs with
  | nil => exact fun _ h => ⟨rfl, h, by simp [closeRuns]⟩
  | cons top runs ih =>
    intro ends hi h
    simp only [closeRuns]
    split
    · rename_i continued
      have continued : entry top <+: entry i := List.isPrefixOf_iff_prefix.1 continued
      refine ⟨rfl, h, fun run hrun => ?_⟩
      rcases List.mem_cons.1 hrun with rfl | hrun
      exacts [continued, ((List.pairwise_cons.1 h.nested).1 run hrun).2.trans continued]
    · rename_i stops
      obtain ⟨size, passed, continued⟩ := ih (by simpa using hi)
        (h.close hi fun h => stops (List.isPrefixOf_iff_prefix.2 h))
      exact ⟨size.trans (by simp), passed, continued⟩

/-- A run is opened at a byte string that continues all open runs. -/
private theorem Passed.open {i : Nat} {runs : List Nat} {ends : Array Nat}
    (h : Passed entry i runs ends) (continued : ∀ run ∈ runs, entry run <+: entry i) :
    Passed entry (i + 1) (i :: runs) ends where
  nested := List.pairwise_cons.2 ⟨fun r hr => ⟨(h.opened r hr).1, continued r hr⟩, h.nested⟩
  opened r hr := by
    rcases List.mem_cons.1 hr with rfl | hmem
    · exact ⟨Nat.lt_succ_self r, fun j _ _ => by omega⟩
    · obtain ⟨hlt, starts⟩ := h.opened r hmem
      refine ⟨by omega, fun j hj hji => ?_⟩
      rcases Nat.lt_succ_iff_lt_or_eq.1 hji with hji | rfl
      exacts [starts j hj hji, continued r hmem]
  pending r hr hpending := by
    refine h.pending r hr ?_
    rcases hpending with hpending | hpending
    · exact (List.mem_cons.1 hpending).symm.imp_right fun h => h.ge
    · exact Or.inr (by omega)
  closed r hr hnot := by
    simp only [List.mem_cons, not_or] at hnot
    exact h.closed r (by omega) hnot.2

/-- Where the run ends that starts at a place of a list of byte strings: at the first later byte string
that does not start with the one at the place, or where the list ends. -/
theorem endsOfRuns_spec (sorted : Array Bytes) {i : Nat} (hi : i < sorted.size) :
    let entry := fun j => sorted.getD j []
    let e := (endsOfRuns sorted).getD i 0
    RunEnds entry i e ∧ e < sorted.size ∨
      e = sorted.size ∧ ∀ j, i < j → j < sorted.size → entry i <+: entry j := by
  intro entry e
  set start : List Nat × Array Nat := ([], Array.replicate sorted.size sorted.size) with hstart
  have passed (n : Nat) (hn : n ≤ sorted.size) :
      let r := (List.range n).foldl (passEntry entry) start
      r.2.size = sorted.size ∧ Passed entry n r.1 r.2 := by
    induction n with
    | zero =>
      refine ⟨by simp [hstart], .nil, by simp [hstart], fun r hr _ => ?_, by simp⟩
      have hr : r < sorted.size := by simpa [hstart] using hr
      simp [hstart, Array.getD_eq_getD_getElem?, hr]
    | succ n ih =>
      obtain ⟨size, passed⟩ := ih (by omega)
      obtain ⟨size', passed', continued⟩ := closeRuns_spec _ (by rw [size]; omega) passed
      rw [List.range_succ, List.foldl_append]
      exact ⟨size'.trans size, passed'.open continued⟩
  obtain ⟨size, passed⟩ := passed sorted.size le_rfl
  have he : e = ((List.range sorted.size).foldl (passEntry entry) start).2.getD i 0 := rfl
  by_cases hopen : i ∈ ((List.range sorted.size).foldl (passEntry entry) start).1
  · right
    refine ⟨?_, (passed.opened i hopen).2⟩
    rw [he, passed.pending i (by rw [size]; exact hi) (Or.inl hopen), size]
  · left
    rw [he]
    simpa only [size] using passed.closed i hi hopen

/-! ## Vocabularies of token strings -/

/-- What token masks rely on. The sorted ids are those of the tokens that can be matched; they have
bytes, and runs of them start with the bytes of their first token. -/
structure Regular (v : Vocabulary) : Prop where
  mem_sortedIds : ∀ id, id ∈ v.sortedIds ↔ v.isSpecial id = false ∧ id ∉ v.stopIds
  bytes_ne_nil : ∀ id ∈ v.sortedIds, v.bytesOf id ≠ []
  starts : ∀ i < v.sortedIds.size, ∀ j, i < j → j < v.runEnds.getD i 0 →
    v.bytesOf (v.sortedIds.getD i 0) <+: v.bytesOf (v.sortedIds.getD j 0)

theorem Regular.lt_size {v : Vocabulary} (hv : v.Regular) {id : Nat} (h : id ∈ v.sortedIds) :
    id < v.size := by
  have := ((hv.mem_sortedIds id).1 h).1
  simp only [isSpecial, Bool.or_eq_false_iff, decide_eq_false_iff_not] at this
  omega

theorem mem_idsOutside {size id : Nat} {excluded : List Nat} :
    id ∈ idsOutside size excluded ↔ id < size ∧ id ∉ excluded := by
  have marks := getD_marksOf size excluded id
  simp only [idsOutside, List.mem_filter, List.mem_range, Bool.not_eq_true', ← Bool.not_eq_true, marks]
  exact and_congr_right fun h => not_congr (and_iff_left h)

theorem mem_silentIdsOf {decoded : List Bytes} {id : Nat} {stopIds : List Nat} :
    id ∈ silentIdsOf decoded stopIds ↔ decoded[id]? = some [] ∧ id ∉ stopIds := by
  rw [silentIdsOf, List.mem_filterMap]
  constructor
  · rintro ⟨⟨bs, i⟩, hmem, heq⟩
    obtain ⟨⟨rfl, hstop⟩, rfl⟩ : (bs = [] ∧ i ∉ stopIds) ∧ i = id := by simpa using heq
    exact ⟨List.mem_zipIdx_iff_getElem?.1 hmem, hstop⟩
  · rintro ⟨hget, hstop⟩
    exact ⟨([], id), List.mem_zipIdx_iff_getElem?.2 hget, by simp [hstop]⟩

/-- An id stands for nothing if it has no token, or a token without bytes that does not end a text. -/
theorem mem_specialIdsOf {decoded : List Bytes} {size id : Nat} {stopIds : List Nat}
    (hsize : decoded.length ≤ size) : id ∈ specialIdsOf decoded size stopIds ↔
      decoded[id]? = some [] ∧ id ∉ stopIds ∨ decoded.length ≤ id ∧ id < size := by
  have missing : decoded.length ≤ id ∧ id < decoded.length + (size - decoded.length) ↔
      decoded.length ≤ id ∧ id < size := by omega
  rw [specialIdsOf, List.mem_append, mem_silentIdsOf, List.mem_range'_1, missing]

/-- The special ids ascend: tokens come before the ids without one. -/
theorem pairwise_specialIdsOf {decoded : List Bytes} {size : Nat} {stopIds : List Nat} :
    (specialIdsOf decoded size stopIds).Pairwise (· < ·) := by
  rw [specialIdsOf, List.pairwise_append]
  refine ⟨?_, List.pairwise_lt_range', fun a ha b hb => ?_⟩
  · have places : decoded.zipIdx.Pairwise fun x y => x.2 < y.2 := by
      rw [← List.pairwise_map (f := Prod.snd) (R := (· < ·)), List.zipIdx_map_snd]
      exact List.pairwise_lt_range'
    refine places.filterMap _ fun x y hxy a ha b hb => ?_
    obtain ⟨-, rfl⟩ : _ ∧ x.2 = a := by simpa using ha
    obtain ⟨-, rfl⟩ : _ ∧ y.2 = b := by simpa using hb
    exact hxy
  · have : a < decoded.length :=
      (List.getElem?_eq_some_iff.1 (mem_silentIdsOf.1 ha).1).1
    exact this.trans_le (List.mem_range'_1.1 hb).1

/-! ## Special tokens -/

/-- Searching ascending ids finds those that are there: an id below the one in the middle is not in
the upper half, and an id above it is not in the lower half. -/
theorem searchIds_iff {ids : Array Nat}
    (mono : ∀ i j, i ≤ j → j < ids.size → ids.getD i 0 ≤ ids.getD j 0) (id lo hi : Nat) :
    hi ≤ ids.size → (searchIds ids id lo hi = true ↔ ∃ i, lo ≤ i ∧ i < hi ∧ ids.getD i 0 = id) := by
  fun_induction searchIds ids id lo hi with
  | case1 lo hi hlt mid found below ih =>
    intro hsize
    rw [ih (by omega)]
    constructor
    · rintro ⟨i, hlo, hi, rfl⟩
      exact ⟨i, hlo, by omega, rfl⟩
    · rintro ⟨i, hlo, hi, rfl⟩
      refine ⟨i, hlo, ?_, rfl⟩
      by_contra hge
      exact absurd below (not_lt.2 (mono mid i (not_lt.1 hge) (by omega)))
  | case2 lo hi hlt mid found _ above ih =>
    intro hsize
    rw [ih hsize]
    constructor
    · rintro ⟨i, hlo, hi, rfl⟩
      exact ⟨i, by omega, hi, rfl⟩
    · rintro ⟨i, hlo, hi, rfl⟩
      refine ⟨i, ?_, hi, rfl⟩
      by_contra hge
      exact absurd above (not_lt.2 (mono i mid (by omega) (by omega)))
  | case3 lo hi hlt mid found hbelow habove =>
    intro hsize
    exact iff_of_true rfl ⟨mid, by omega, by omega, le_antisymm (not_lt.1 hbelow) (not_lt.1 habove)⟩
  | case4 lo hi hnot =>
    intro hsize
    exact iff_of_false Bool.false_ne_true fun ⟨i, hlo, hi, _⟩ => hnot (by omega)

/-- The tokens that stand for nothing are found if the special ids ascend. -/
theorem isSpecial_iff {v : Vocabulary} (ascend : v.specialIds.toList.Pairwise (· < ·)) (id : Nat) :
    v.isSpecial id = true ↔ v.size ≤ id ∨ id ∈ v.specialIds := by
  have getD_eq {i : Nat} (hi : i < v.specialIds.size) : v.specialIds.getD i 0 = v.specialIds[i] := by
    simp [Array.getD_eq_getD_getElem?, hi]
  have mono (i j : Nat) (hij : i ≤ j) (hj : j < v.specialIds.size) :
      v.specialIds.getD i 0 ≤ v.specialIds.getD j 0 := by
    rcases hij.eq_or_lt with rfl | hlt
    · exact le_rfl
    · rw [getD_eq (hlt.trans hj), getD_eq hj]
      exact (List.pairwise_iff_getElem.1 ascend i j (hlt.trans hj) hj hlt).le
  rw [isSpecial, Bool.or_eq_true, decide_eq_true_iff, searchIds_iff mono id 0 _ le_rfl,
    Array.mem_iff_getElem]
  refine or_congr_right (exists_congr fun i => ⟨fun ⟨_, hi, heq⟩ => ⟨hi, getD_eq hi ▸ heq⟩, ?_⟩)
  exact fun ⟨hi, heq⟩ => ⟨Nat.zero_le i, hi, (getD_eq hi).trans heq⟩

theorem regular_ofBytes {tokens : List String} {kind : Kind} {size : Nat} {addsSpace : Bool}
    {decoded : List Bytes} {stopIds : List Nat} (hsize : decoded.length ≤ size) :
    (ofBytes tokens kind size addsSpace decoded stopIds).Regular := by
  set v := ofBytes tokens kind size addsSpace decoded stopIds with hv
  have ascend : v.specialIds.toList.Pairwise (· < ·) := pairwise_specialIdsOf
  have mem_sortedIds (id : Nat) : id ∈ v.sortedIds ↔ v.isSpecial id = false ∧ id ∉ v.stopIds := by
    rw [← Bool.not_eq_true, isSpecial_iff ascend]
    simp only [hv, ofBytes, List.mem_toArray, List.mem_mergeSort, mem_idsOutside, List.mem_append,
      not_or, not_le]
    tauto
  have entry (i : Nat) : (v.sortedIds.toList.map v.bytesOf).toArray.getD i [] =
      if i < v.sortedIds.size then v.bytesOf (v.sortedIds.getD i 0) else [] := by
    by_cases hi : i < v.sortedIds.size <;> simp [Array.getD_eq_getD_getElem?, hi]
  refine ⟨mem_sortedIds, fun id hid hnil => ?_, fun i hi j hij hj => ?_⟩
  · obtain ⟨hspecial, hstop⟩ := (mem_sortedIds id).1 hid
    rw [← Bool.not_eq_true, isSpecial_iff ascend, not_or, not_le] at hspecial
    have hspecial : id < size ∧ id ∉ specialIdsOf decoded size stopIds :=
      hspecial.imp_right fun h hmem => h (by simpa [hv, ofBytes] using hmem)
    rw [mem_specialIdsOf hsize] at hspecial
    have hlt : id < decoded.length := by omega
    have bytes : v.bytesOf id = decoded[id] := by
      simp [hv, ofBytes, bytesOf, Array.getD_eq_getD_getElem?, Array.getElem?_append, hlt]
    exact hspecial.2 (Or.inl ⟨by rw [List.getElem?_eq_getElem hlt, ← bytes, hnil], hstop⟩)
  · have runEnds : v.runEnds = endsOfRuns (v.sortedIds.toList.map v.bytesOf).toArray := rfl
    have size : (v.sortedIds.toList.map v.bytesOf).toArray.size = v.sortedIds.size := by simp
    rw [runEnds] at hj
    rcases endsOfRuns_spec (v.sortedIds.toList.map v.bytesOf).toArray (size ▸ hi) with
      ⟨ends, hlt⟩ | ⟨hend, starts⟩
    · simpa [entry, hi, show j < v.sortedIds.size by omega] using ends.starts j hij hj
    · simpa [entry, hi, show j < v.sortedIds.size by omega] using starts j hij (by omega)

/-- Every vocabulary of token strings is regular. -/
theorem regular_of_ofTokens {tokens : List String} {kind : Kind} {size : Option Nat}
    {stop : Setting (List Nat)} {addsSpace : Bool} {v : Vocabulary}
    (h : ofTokens tokens kind size stop addsSpace = .ok v) : v.Regular := by
  simp only [ofTokens] at h
  split at h
  · cases h
  · rename_i hsize
    obtain ⟨decoded, hdecoded, h⟩ := Except.bind_eq_ok.1 h
    obtain ⟨stopIds, -, h⟩ := Except.bind_eq_ok.1 h
    obtain rfl := Except.ok.inj h
    have length : decoded.length = tokens.length := Except.length_of_mapM hdecoded
    exact regular_ofBytes (by omega)

end ConstrainedDecoding.Vocabulary
