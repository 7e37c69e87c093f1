import ConstrainedDecoding.Proofs.Renumbering
import ConstrainedDecoding.Proofs.VocabularyPayloads

/-!
# Masks and plain classification

The mask of a state is what comes of classifying every token, one after the other: the runs that are
skipped hold rejected tokens only, and tables that are equal share what is the same for all of them.
-/
namespace ConstrainedDecoding

namespace TokenMask

/-- The mask of a state when each token is classified. -/
def plain (t : Table) (v : Vocabulary) (s : StateId) : TokenMask :=
  ofClasses v.size (v.sortedIds.toList.filter fun id => t.classify s (v.bytesOf id) = .accepted)
    (places t s v .uncertain 0)

variable {v : Vocabulary}

/-- The mask of a state is what comes of classifying each token. -/
theorem ofState_eq_plain (hv : v.Regular) (t : Table) (s : StateId) : ofState t v s = plain t v s := by
  have accepted : (places t s v .accepted 0).map (v.sortedIds.getD · 0) =
      v.sortedIds.toList.filter fun id => t.classify s (v.bytesOf id) = .accepted := by
    have listed : (List.range v.sortedIds.size).map (v.sortedIds.getD · 0) = v.sortedIds.toList :=
      List.ext_getElem (by simp) fun j hj _ => by
        simp [Array.getD_eq_getD_getElem?, show j < v.sortedIds.size by simpa using hj]
    rw [places, ← listed, List.filter_map, Nat.sub_zero, ← List.range_eq_range']
    rfl
  rw [ofState, classes_eq hv]
  exact congrArg (fun ids => ofClasses v.size ids (places t s v .uncertain 0)) accepted

end TokenMask

namespace MaskPool

open TokenMask (plain)

variable {tokens : List String} {kind : Vocabulary.Kind} {size : Option Nat}
  {stop : Setting (List Nat)} {addsSpace : Bool} {v : Vocabulary}

/-- A state of a table that reads some byte has the mask that comes of classifying each token, be it
made for this table or shared from an equal one. In either form it allows just the accepted tokens in
an empty row, and it lists just the places of the uncertain tokens, ascending. Of a rejected token the
whole run, which is skipped, is rejected. -/
theorem maskAt_ofTables (hv : Vocabulary.ofTokens tokens kind size stop addsSpace = .ok v)
    {tables : Array Table} {r : RuleId} {t : Table} (ht : tables[r]? = some t) {s : StateId}
    (hs : s < t.size) (hscans : t.scansAt s = true) :
    let m := (ofTables v tables).maskAt r s
    let row := m.applyTo (Bitmask.zero (Bitmask.wordsFor v.size))
    m = plain t v s ∧ row.size = Bitmask.wordsFor v.size ∧
    (∀ id, row.allows id = true ↔ id ∈ v.sortedIds ∧ t.classify s (v.bytesOf id) = .accepted) ∧
    m.uncertain.Pairwise (· < ·) ∧
    (∀ j, j ∈ m.uncertain ↔
      ∃ id, v.sortedIds[j]? = some id ∧ t.classify s (v.bytesOf id) = .uncertain) ∧
    ∀ i id, v.sortedIds[i]? = some id → t.classify s (v.bytesOf id) = .rejected →
      ∀ j, i ≤ j → j < max (v.runEnds.getD i 0) (i + 1) → ∀ id', v.sortedIds[j]? = some id' →
        t.classify s (v.bytesOf id') = .rejected := by
  have regular := Vocabulary.regular_of_ofTokens hv
  obtain ⟨places, k, hplaces, hk, hmask⟩ := ofTables_spec v tables ht hs
  have mask : (ofTables v tables).maskAt r s = .ofState t v s := by
    rw [maskAt_of_some (i := k) (by simp [Array.getD_eq_getD_getElem?, hplaces, hk])]
    simp [Array.getD_eq_getD_getElem?, hmask, maskOf, hscans]
  intro m row
  have hm : m = .ofState t v s := mask
  refine ⟨hm.trans (TokenMask.ofState_eq_plain regular t s), ?_, fun id => ?_, ?_, fun j => ?_,
    fun i id hid hrejected j hij hj id' hid' => ?_⟩
  · rw [TokenMask.size_applyTo, Bitmask.size_zero]
  · simp only [row, hm, TokenMask.allows_ofState regular t s (Bitmask.size_zero _), Bitmask.allows_zero,
      Bool.false_eq_true, or_false]
  · rw [hm, TokenMask.ofState_eq_plain regular, plain, TokenMask.uncertain_ofClasses]
    exact TokenMask.pairwise_places
  · rw [hm]
    exact TokenMask.mem_uncertain_ofState regular t s j
  · exact (TokenMask.rejected_of_run regular ⟨hid, hrejected⟩ hij hj hid').2

/-- A rule of the byte `a`. -/
def byteA : Table := .ofDfa ⟨#[⟨[(97, 97, 1)], [], false⟩, ⟨[], [], true⟩]⟩

/-- The tokens `a`, `ab`, `b` and `ba`. -/
def twoBytes : Vocabulary :=
  .ofBytes ["a", "ab", "b", "ba"] .raw 4 false [[97], [97, 98], [98], [98, 97]] []

theorem sortedIds_twoBytes : twoBytes.sortedIds = #[0, 1, 2, 3] :=
  congrArg List.toArray (List.mergeSort_of_pairwise (by decide +kernel))

/-- In the mask that the second of two equal tables shares with the first, `a` is accepted, `ab` is
uncertain, and `b` is rejected together with `ba`. -/
theorem maskAt_byteA : let m := (ofTables twoBytes #[byteA, byteA]).maskAt 1 0
    m.uncertain = [1] ∧ ∀ id, (m.applyTo (Bitmask.zero 1)).allows id = true ↔ id = 0 := by
  have made : Vocabulary.ofTokens ["a", "ab", "b", "ba"] .raw none .unset false = .ok twoBytes :=
    Vocabulary.ofTokens_eq_ok.2 ⟨by decide, _, by decide +kernel, [], by decide +kernel, rfl⟩
  have second : (#[byteA, byteA] : Array Table)[1]? = some byteA := rfl
  obtain ⟨mask, -, allows, -⟩ :=
    maskAt_ofTables made second (s := 0) (by decide +kernel) (by decide +kernel)
  refine ⟨?_, fun id => (allows id).trans ?_⟩
  · rw [mask, plain, TokenMask.uncertain_ofClasses, TokenMask.places, sortedIds_twoBytes]
    decide +kernel
  · have classes : ∀ id ∈ [0, 1, 2, 3],
        byteA.classify 0 (twoBytes.bytesOf id) = .accepted ↔ id = 0 := by decide +kernel
    rw [sortedIds_twoBytes, List.mem_toArray]
    constructor
    · rintro ⟨hmem, hclass⟩
      exact (classes id hmem).1 hclass
    · rintro rfl
      exact ⟨by decide, (classes 0 (by decide)).2 rfl⟩

end MaskPool

end ConstrainedDecoding
