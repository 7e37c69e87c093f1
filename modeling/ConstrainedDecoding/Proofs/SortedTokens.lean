import ConstrainedDecoding.Proofs.VocabularyPayloads
import Mathlib

/-!
# Tokens sorted by their bytes

The tokens that can be matched are listed once each, in the lexicographic order of their bytes. All
continuations of a byte string stand side by side in this order, so the run that starts at a token
has all later tokens that start with its bytes.
-/
namespace ConstrainedDecoding.Vocabulary

/-! ## Order of byte strings -/

theorem bytesLe_cons {a b : UInt8} {as bs : Bytes} :
    bytesLe (a :: as) (b :: bs) = true ↔ a < b ∨ a = b ∧ bytesLe as bs = true := by
  simp [bytesLe]

theorem bytesLe_iff_lex : ∀ as bs : Bytes, bytesLe as bs = true ↔ ¬ List.Lex (· < ·) bs as
  | [], bs => iff_of_true (by simp [bytesLe]) List.not_lex_nil
  | a :: as, [] => iff_of_false (by simp [bytesLe]) (not_not.2 .nil)
  | a :: as, b :: bs => by
    rw [bytesLe_cons, List.cons_lex_cons_iff, bytesLe_iff_lex as bs]
    rcases Std.lt_trichotomy a b with hlt | rfl | hlt
    · simp [hlt, UInt8.lt_asymm hlt, (UInt8.ne_of_lt hlt).symm]
    · simp [UInt8.lt_irrefl]
    · simp [hlt, UInt8.lt_asymm hlt, (UInt8.ne_of_lt hlt).symm]

theorem bytesLe_total : ∀ as bs : Bytes, (bytesLe as bs || bytesLe bs as) = true
  | [], _ => by simp [bytesLe]
  | _ :: _, [] => by simp [bytesLe]
  | a :: as, b :: bs => by
    rw [Bool.or_eq_true, bytesLe_cons, bytesLe_cons]
    rcases Std.lt_trichotomy a b with hlt | rfl | hlt
    · exact Or.inl (Or.inl hlt)
    · exact (Bool.or_eq_true_iff.1 (bytesLe_total as bs)).imp (fun h => Or.inr ⟨rfl, h⟩)
        fun h => Or.inr ⟨rfl, h⟩
    · exact Or.inr (Or.inl hlt)

theorem bytesLe_trans : ∀ as bs cs : Bytes,
    bytesLe as bs = true → bytesLe bs cs = true → bytesLe as cs = true
  | [], _, _ => by simp [bytesLe]
  | _ :: _, [], _ => by simp [bytesLe]
  | _ :: _, _ :: _, [] => by simp [bytesLe]
  | a :: as, b :: bs, c :: cs => by
    simp only [bytesLe_cons]
    rintro (hab | ⟨rfl, has⟩) (hbc | ⟨rfl, hbs⟩)
    · exact Or.inl (UInt8.lt_trans hab hbc)
    · exact Or.inl hab
    · exact Or.inl hbc
    · exact Or.inr ⟨rfl, bytesLe_trans as bs cs has hbs⟩

/-- What stands between a byte string and a continuation of it is a continuation, too. -/
theorem prefix_of_bytesLe : ∀ {as bs cs : Bytes},
    bytesLe as bs = true → bytesLe bs cs = true → as <+: cs → as <+: bs
  | [], _, _, _, _, _ => List.nil_prefix
  | _ :: _, [], _, hab, _, _ => by simp [bytesLe] at hab
  | _ :: _, _ :: _, [], _, _, h => by simp at h
  | a :: as, b :: bs, c :: cs, hab, hbc, h => by
    obtain ⟨rfl, hcs⟩ := List.cons_prefix_cons.1 h
    rcases bytesLe_cons.1 hab with hlt | ⟨rfl, has⟩
    · rcases bytesLe_cons.1 hbc with hgt | ⟨rfl, -⟩
      exacts [absurd hgt (UInt8.lt_asymm hlt), absurd hlt (UInt8.lt_irrefl b)]
    · rcases bytesLe_cons.1 hbc with hgt | ⟨-, hbs⟩
      · exact absurd hgt (UInt8.lt_irrefl a)
      · exact List.cons_prefix_cons.2 ⟨rfl, prefix_of_bytesLe has hbs hcs⟩

/-! ## Runs of a sorted list -/

section

variable {sorted : Array Bytes} {i j : Nat}

theorem size_closeRuns {entry : Nat → Bytes} {bytes : Bytes} (runs : List Nat) :
    ∀ ends : Array Nat, (closeRuns entry i bytes runs ends).2.size = ends.size := by
  induction runs with
  | nil => exact fun _ => rfl
  | cons top runs ih =>
    intro ends
    rw [closeRuns]
    split
    · rfl
    · rw [ih, Array.size_set!]

theorem size_endsOfRuns (sorted : Array Bytes) : (endsOfRuns sorted).size = sorted.size := by
  rw [endsOfRuns]
  refine List.foldlRecOn (motive := fun state : List Nat × Array Nat => state.2.size = sorted.size)
    _ _ (by simp) ?_
  exact fun state h j _ => (size_closeRuns state.1 state.2).trans h

/-- The places from a token on that are in its run are those whose byte strings start with its. -/
theorem lt_endsOfRuns_iff (order : ∀ i j, i ≤ j → j < sorted.size →
    bytesLe (sorted.getD i []) (sorted.getD j []) = true) (hij : i ≤ j) (hi : i < sorted.size) :
    j < (endsOfRuns sorted).getD i 0 ↔
      j < sorted.size ∧ sorted.getD i [] <+: sorted.getD j [] := by
  rcases endsOfRuns_spec sorted hi with ⟨ends, hlt⟩ | ⟨hend, starts⟩
  · refine ⟨fun hj => ⟨hj.trans hlt, ?_⟩, fun ⟨hj, h⟩ => ?_⟩
    · rcases hij.eq_or_lt with rfl | hij
      exacts [List.prefix_rfl, ends.starts j hij hj]
    · by_contra hge
      have after := not_lt.1 hge
      exact ends.stops (prefix_of_bytesLe (order _ _ ends.lt.le hlt) (order _ _ after hj) h)
  · rw [hend]
    refine ⟨fun hj => ⟨hj, ?_⟩, And.left⟩
    rcases hij.eq_or_lt with rfl | hij
    exacts [List.prefix_rfl, starts j hij hj]

end

/-! ## Vocabularies -/

/-- The ids that can be matched are listed once each, in the lexicographic order of their bytes, and
where the run of each ends is known. The special ids ascend, so halving them finds them. -/
structure InOrder (v : Vocabulary) : Prop where
  mem_sortedIds : ∀ id, id ∈ v.sortedIds ↔ id < v.size ∧ id ∉ v.stopIds ∧ id ∉ v.specialIds
  nodup : v.sortedIds.toList.Nodup
  sorted : v.sortedIds.toList.Pairwise fun a b => ¬ List.Lex (· < ·) (v.bytesOf b) (v.bytesOf a)
  size_runEnds : v.runEnds.size = v.sortedIds.size
  mem_run : ∀ i < v.sortedIds.size, ∀ j, i ≤ j ∧ j < v.runEnds.getD i 0 ↔
    i ≤ j ∧ j < v.sortedIds.size ∧
      v.bytesOf (v.sortedIds.getD i 0) <+: v.bytesOf (v.sortedIds.getD j 0)
  ascend : v.specialIds.toList.Pairwise (· < ·)
  isSpecial_iff : ∀ id, v.isSpecial id = true ↔ v.size ≤ id ∨ id ∈ v.specialIds

section

variable {tokens : List String} {kind : Kind} {addsSpace : Bool} {size : Nat} {decoded : List Bytes}
  {stopIds : List Nat}

theorem pairwise_sortedIds :
    let v := ofBytes tokens kind size addsSpace decoded stopIds
    v.sortedIds.toList.Pairwise fun a b => bytesLe (v.bytesOf a) (v.bytesOf b) = true := by
  intro v
  let le (a b : Nat) : Bool := bytesLe (v.bytesOf a) (v.bytesOf b)
  have trans (a b c : Nat) : le a b = true → le b c = true → le a c = true := bytesLe_trans _ _ _
  have total (a b : Nat) : (le a b || le b a) = true := bytesLe_total _ _
  exact List.pairwise_mergeSort trans total _

/-- The run of a token has the later tokens that start with its bytes. -/
theorem lt_runEnds_iff {i j : Nat} :
    let v := ofBytes tokens kind size addsSpace decoded stopIds
    i < v.sortedIds.size → i ≤ j → (j < v.runEnds.getD i 0 ↔ j < v.sortedIds.size ∧
      v.bytesOf (v.sortedIds.getD i 0) <+: v.bytesOf (v.sortedIds.getD j 0)) := by
  intro v hi hij
  let sorted := (v.sortedIds.toList.map v.bytesOf).toArray
  have length : sorted.size = v.sortedIds.size := by simp [sorted]
  have entry {i : Nat} (hi : i < v.sortedIds.size) :
      sorted.getD i [] = v.bytesOf (v.sortedIds.getD i 0) := by
    simp [sorted, Array.getD_eq_getD_getElem?, hi]
  have order (i j : Nat) (hij : i ≤ j) (hj : j < sorted.size) :
      bytesLe (sorted.getD i []) (sorted.getD j []) = true := by
    rw [length] at hj
    have hi := hij.trans_lt hj
    rcases hij.eq_or_lt with rfl | hlt
    · simpa using bytesLe_total (sorted.getD i []) (sorted.getD i [])
    · rw [entry hi, entry hj]
      simpa [Array.getD_eq_getD_getElem?, hi, hj] using
        List.pairwise_iff_getElem.1 pairwise_sortedIds i j hi hj hlt
  have runEnds : v.runEnds = endsOfRuns sorted := rfl
  rw [runEnds, lt_endsOfRuns_iff order hij (by rwa [length]), length]
  exact and_congr_right fun hj => by rw [entry hi, entry hj]

theorem inOrder_ofBytes : (ofBytes tokens kind size addsSpace decoded stopIds).InOrder where
  mem_sortedIds id := by
    simp [ofBytes, mem_idsOutside]
  nodup := (List.mergeSort_perm _ _).nodup_iff.2 (List.nodup_range.filter _)
  sorted := pairwise_sortedIds.imp fun h => (bytesLe_iff_lex _ _).1 h
  size_runEnds := by
    simp [ofBytes, size_endsOfRuns]
  mem_run i hi j := and_congr_right fun hij => lt_runEnds_iff hi hij
  ascend := pairwise_specialIdsOf
  isSpecial_iff := isSpecial_iff pairwise_specialIdsOf

end

/-- Every vocabulary of token strings is in order. Its ids have the bytes of their tokens, and its special
ids are those that have no token, or one without bytes that does not end a text. -/
theorem inOrder_of_ofTokens {tokens : List String} {kind : Kind} {size : Option Nat}
    {stop : Setting (List Nat)} {addsSpace : Bool} {v : Vocabulary}
    (h : ofTokens tokens kind size stop addsSpace = .ok v) :
    v.InOrder ∧ v.size = size.getD tokens.length ∧ stopIdsOf tokens v.size stop = .ok v.stopIds ∧
    (∀ id token, tokens[id]? = some token → tokenBytes kind token = .ok (v.bytesOf id)) ∧
    ∀ id, id ∈ v.specialIds ↔ id < v.size ∧
      (tokens.length ≤ id ∨ v.bytesOf id = [] ∧ id ∉ v.stopIds) := by
  obtain ⟨hsize, decoded, hdecoded, stopIds, hstop, rfl⟩ := ofTokens_eq_ok.1 h
  have length : decoded.length = tokens.length := Except.length_of_mapM hdecoded
  set v := ofBytes tokens kind (size.getD tokens.length) addsSpace decoded stopIds with hv
  have bytesOf {id : Nat} (hid : id < decoded.length) : v.bytesOf id = decoded[id] := by
    simp [hv, ofBytes, Vocabulary.bytesOf, Array.getD_eq_getD_getElem?, Array.getElem?_append, hid]
  refine ⟨inOrder_ofBytes, rfl, hstop, fun id token hid => ?_, fun id => ?_⟩
  · obtain ⟨bs, hbs, hdecode⟩ := Except.getElem?_of_mapM hdecoded id hid
    obtain ⟨hlt, rfl⟩ := List.getElem?_eq_some_iff.1 hbs
    rw [bytesOf hlt]
    exact hdecode
  · have mem : id ∈ v.specialIds ↔ id ∈ specialIdsOf decoded v.size v.stopIds := List.mem_toArray
    rw [mem, mem_specialIdsOf (length ▸ hsize), ← length]
    by_cases hid : id < decoded.length
    · have hsize : id < v.size := hid.trans_le (length ▸ hsize)
      simp [hid, not_le.2 hid, hsize, bytesOf hid]
    · simp only [List.getElem?_eq_none (not_lt.1 hid), not_lt.1 hid]
      tauto

/-- Tokens that start others or occur twice, ids without a token, and a stop id among these. -/
theorem inOrder_of_repeatedTokens :
    ∃ v, ofTokens ["ab", "a", "ab", "", "b", "c"] .raw (some 9) (.set [4, 7]) false = .ok v ∧
      v.sortedIds = #[1, 0, 2, 5] ∧ v.runEnds = #[3, 3, 3, 4] ∧ v.specialIds = #[3, 6, 7, 8] ∧
      v.InOrder := by
  have made : ofTokens ["ab", "a", "ab", "", "b", "c"] .raw (some 9) (.set [4, 7]) false =
      .ok (ofBytes ["ab", "a", "ab", "", "b", "c"] .raw 9 false
        [[97, 98], [97], [97, 98], [], [98], [99]] [4, 7]) :=
    ofTokens_eq_ok.2 ⟨by decide, _, by decide +kernel, _, by decide +kernel, rfl⟩
  exact ⟨_, made, by cbv, by cbv, by cbv, (inOrder_of_ofTokens made).1⟩

end ConstrainedDecoding.Vocabulary
