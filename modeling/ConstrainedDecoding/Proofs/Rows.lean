import ConstrainedDecoding.Proofs.Trials
import ConstrainedDecoding.Proofs.Verdicts

/-!
# The row of a stack

The token masks of the current states and the tokens that are tried make up the row of a stack. It
allows the tokens whose bytes can be read, and those that the table of a current state accepts.
-/
namespace ConstrainedDecoding

/-- The tables of a compiled grammar and its vocabulary are regular, and its masks are those of its
states. -/
structure Compiled.Masked (c : Compiled) : Prop where
  regular : c.Regular
  vocabulary : c.vocabulary.Regular
  mask : ∀ r < c.tables.size, ∀ s < (c.table r).size,
    c.mask r s = MaskPool.maskOf c.vocabulary (c.table r) s

/-- What was compiled against a vocabulary of token strings has the masks of its states. -/
theorem Compiled.masked_of_compile {g : Grammar} {v : Vocabulary} {c : Compiled} (hg : g.Valid)
    (hv : v.Regular) (hc : compile g v = .ok c) : c.Masked := by
  obtain ⟨regular, -, -, hvocabulary⟩ := compile_spec hg hc
  exact ⟨regular, hvocabulary ▸ hv, fun r hr s hs => hvocabulary ▸ mask_eq hc hr hs⟩

namespace TokenMask

variable {v : Vocabulary} {c : Compiled}

/-- The masks of some places allow what one of them accepts. -/
theorem allows_foldl_ofState (hv : v.Regular) (places : List (RuleId × StateId)) :
    ∀ {row : Bitmask}, row.size = Bitmask.wordsFor v.size →
      let row' := (places.map fun (r, s) => ofState (c.table r) v s).foldl
        (fun row m => m.applyTo row) row
      row'.size = Bitmask.wordsFor v.size ∧ ∀ id, row'.allows id = true ↔
        row.allows id = true ∨ id ∈ v.sortedIds ∧ ∃ place ∈ places,
          (c.table place.1).classify place.2 (v.bytesOf id) = .accepted := by
  induction places with
  | nil => exact fun hrow => ⟨hrow, by simp⟩
  | cons place places ih =>
    intro row hrow
    obtain ⟨size, allows⟩ := ih ((size_applyTo (ofState (c.table place.1) v place.2) row).trans hrow)
    refine ⟨size, fun id => ?_⟩
    rw [List.map_cons, List.foldl_cons, allows, allows_ofState hv _ _ hrow, List.exists_mem_cons_iff,
      and_or_left, or_comm (b := row.allows id = true), or_assoc]

/-- The masks of some places leave open what one of them leaves open. -/
theorem mem_flatMap_uncertain (hv : v.Regular) {places : List (RuleId × StateId)} {j : Nat} :
    j ∈ (places.map fun (r, s) => ofState (c.table r) v s).flatMap (·.uncertain) ↔
      ∃ place ∈ places, ∃ id, HasClass (c.table place.1) place.2 v .uncertain j id := by
  simp [List.mem_flatMap, mem_uncertain_ofState hv]

end TokenMask

namespace Matcher

open Stack (levels Survives)

variable {c : Compiled} {maxDepth : Nat}

theorem exists_mem_distinctPlaces {states : Array Stack.State} {P : RuleId → StateId → Prop} :
    (∃ place ∈ distinctPlaces states.toList, P place.1 place.2) ↔
      ∃ s ∈ states, P s.rule s.state := by
  simp [distinctPlaces]

/-- The masks of the current states are those of their tables. -/
theorem masks_of_current (hc : c.Masked) (w : Bytes) :
    (distinctPlaces (levels c maxDepth w).current.toList).map (fun (r, s) => c.mask r s) =
      (distinctPlaces (levels c maxDepth w).current.toList).map
        fun (r, s) => .ofState (c.table r) c.vocabulary s := by
  refine List.map_congr_left fun place hplace => ?_
  obtain ⟨s, hs, rfl⟩ := exists_mem_distinctPlaces (P := fun r s => (r, s) = place) |>.1
    ⟨place, hplace, rfl⟩
  have before := Stack.before_of_current (Stack.inRange_levels hc.regular w) hs
  have scans := Stack.scans_of_current hc.regular hs
  exact (hc.mask _ before.rule_lt _ before.state_lt).trans (if_pos scans)

/-- A token that can be read is not rejected at all current states. -/
theorem exists_not_rejected (hc : c.Masked) {w : Bytes} {id : Nat}
    (hid : id ∈ c.vocabulary.sortedIds)
    (survives : Survives c maxDepth w (c.vocabulary.bytesOf id)) :
    ∃ s ∈ (levels c maxDepth w).current,
      (c.table s.rule).classify s.state (c.vocabulary.bytesOf id) ≠ .rejected := by
  obtain ⟨b, bs, hbytes⟩ := List.exists_cons_of_ne_nil (hc.vocabulary.bytes_ne_nil id hid)
  by_contra h
  rw [hbytes] at survives h
  refine Stack.not_survives_of_dies hc.regular bs b w (fun s hs => ?_) survives
  exact Table.classify_eq_rejected.1 (not_not.1 fun hne => h ⟨s, hs, hne⟩)

/-- The row of a stack allows the tokens whose bytes can be read and those that the table of a current
state accepts. -/
theorem allows_stackRow (hc : c.Masked) (w : Bytes) :
    let v := c.vocabulary
    let row := (stackRow c maxDepth (levels c maxDepth w)
      (Bitmask.zero (Bitmask.wordsFor v.size))).1
    row.size = Bitmask.wordsFor v.size ∧ ∀ id, row.allows id = true ↔ id ∈ v.sortedIds ∧
      (Survives c maxDepth w (v.bytesOf id) ∨ ∃ s ∈ (levels c maxDepth w).current,
        (c.table s.rule).classify s.state (v.bytesOf id) = .accepted) := by
  intro v row
  set places := distinctPlaces (levels c maxDepth w).current.toList with hplaces
  set masks := places.map fun (r, s) => TokenMask.ofState (c.table r) v s with hmasks
  set uncertain := if masks.length ≤ 1 then masks.flatMap (·.uncertain)
    else Nfa.ascending (masks.flatMap (·.uncertain)) with huncertain
  have mem_uncertain (j : Nat) : j ∈ uncertain ↔ ∃ s ∈ (levels c maxDepth w).current,
      ∃ id, TokenMask.HasClass (c.table s.rule) s.state v .uncertain j id := by
    have : j ∈ uncertain ↔ j ∈ masks.flatMap (·.uncertain) := by
      rw [huncertain]
      split
      exacts [Iff.rfl, Nfa.mem_ascending]
    rw [this, hmasks, TokenMask.mem_flatMap_uncertain hc.vocabulary, hplaces]
    exact exists_mem_distinctPlaces
      (P := fun r s => ∃ id, TokenMask.HasClass (c.table r) s v .uncertain j id)
  have getD {t : Table} {s : StateId} {verdict : Verdict} {j id : Nat}
      (h : TokenMask.HasClass t s v verdict j id) : v.sortedIds.getD j 0 = id := by
    simp [Array.getD_eq_getD_getElem?, h.1]
  have eq : row = (tryTokens c maxDepth (levels c maxDepth w) uncertain
      (masks.foldl (fun row m => m.applyTo row) (Bitmask.zero (Bitmask.wordsFor v.size)))).1 := by
    simp only [row, stackRow, masks_of_current hc]
    rfl
  obtain ⟨size, accepted⟩ := TokenMask.allows_foldl_ofState (c := c) hc.vocabulary places
    (Bitmask.size_zero (Bitmask.wordsFor v.size))
  have inside (j : Nat) (hj : j ∈ uncertain) : v.sortedIds.getD j 0 / 32 <
      (masks.foldl (fun row m => m.applyTo row) (Bitmask.zero (Bitmask.wordsFor v.size))).size := by
    obtain ⟨s, -, id, h⟩ := (mem_uncertain j).1 hj
    rw [size, getD h]
    exact Bitmask.div_lt_wordsFor (hc.vocabulary.lt_size (Array.mem_of_getElem? h.1))
  obtain ⟨size', allows⟩ := allows_tryTokens c maxDepth w uncertain inside
  refine ⟨eq ▸ size'.trans size, fun id => ?_⟩
  have current : (∃ place ∈ places,
      (c.table place.1).classify place.2 (v.bytesOf id) = .accepted) ↔
      ∃ s ∈ (levels c maxDepth w).current,
        (c.table s.rule).classify s.state (v.bytesOf id) = .accepted :=
    exists_mem_distinctPlaces (P := fun r s => (c.table r).classify s (v.bytesOf id) = .accepted)
  rw [eq, allows, accepted, Bitmask.allows_zero, current]
  constructor
  · rintro ((h | ⟨hid, haccepted⟩) | ⟨j, hj, rfl, survives⟩)
    · cases h
    · exact ⟨hid, Or.inr haccepted⟩
    · obtain ⟨s, -, id, h⟩ := (mem_uncertain j).1 hj
      exact ⟨getD h ▸ Array.mem_of_getElem? h.1, Or.inl survives⟩
  · rintro ⟨hid, survives | haccepted⟩
    · obtain ⟨s, hs, hclass⟩ := exists_not_rejected hc hid survives
      cases hverdict : (c.table s.rule).classify s.state (v.bytesOf id) with
      | rejected => exact absurd hverdict hclass
      | accepted => exact Or.inl (Or.inr ⟨hid, s, hs, hverdict⟩)
      | uncertain =>
        obtain ⟨j, hj⟩ := Array.mem_iff_getElem?.1 hid
        have h : TokenMask.HasClass (c.table s.rule) s.state v .uncertain j id := ⟨hj, hverdict⟩
        exact Or.inr ⟨j, (mem_uncertain j).2 ⟨s, hs, id, h⟩, (getD h).symm, survives⟩
    · exact Or.inl (Or.inr ⟨hid, haccepted⟩)

end Matcher

end ConstrainedDecoding
