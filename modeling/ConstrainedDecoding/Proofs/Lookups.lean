import ConstrainedDecoding.Proofs.CompiledPayloads

/-!
# What lookups in a compiled grammar rely on

The tables have a row, calls and marks for each state, transitions and calls lead to states and rules that
there are, and each state has a place among the masks, whose tokens are those of the vocabulary. This
holds of what was compiled and of what was read from a payload, whoever wrote it; only, a payload may set
bits past the vocabulary in the last word of a mask.
-/
namespace ConstrainedDecoding

/-! ## Tables -/

namespace Table

/-- Each state has a row with an entry for each byte, its calls and its marks. -/
structure Full (t : Table) : Prop where
  rows : ∀ row ∈ t.rows, row.size = 256
  calls : t.calls.size = t.size
  ends : t.ends.size = t.size
  scans : t.scans.size = t.size

theorem size_rowOf (bytes : List (Nat × Nat × StateId)) : (rowOf bytes).size = 256 := by
  have size (row : Array UInt16) : (bytes.foldl fillRange row).size = row.size := by
    induction bytes generalizing row with
    | nil => rfl
    | cons range bytes ih => exact (ih _).trans (size_fillRange row range)
  exact (size _).trans Array.size_replicate

theorem full_ofDfa (d : Dfa) : (ofDfa d).Full where
  rows row hrow := by
    obtain ⟨s, -, rfl⟩ := Array.mem_map.1 hrow
    exact size_rowOf s.bytes
  calls := by simp [ofDfa, size]
  ends := by simp [ofDfa, size]
  scans := by simp [ofDfa, size]

end Table

namespace Grammar

theorem full_of_ruleTable {rule : Rule} {x : Expansion} {t : Table} (h : ruleTable rule x = .ok t) : t.Full := by
  unfold ruleTable at h
  split at h
  · rename_i d _
    exact Except.ok.inj h ▸ Table.full_ofDfa d
  · simp at h

/-- There are fewer tables than rules can be told apart with 16 bits, and all of them are full. -/
theorem full_of_tables {g : Grammar} {ts : Array Table} (h : g.tables = .ok ts) :
    ts.size < stateLimit ∧ ∀ t ∈ ts, t.Full := by
  unfold tables at h
  split at h
  · cases h
  · rename_i few
    obtain ⟨ts', hts, h⟩ := Except.bind_eq_ok.1 h
    obtain rfl := Except.ok.inj h
    have length := Except.length_of_mapM hts
    refine ⟨?_, fun t ht => ?_⟩
    · simp only [Array.length_toList, Array.size_zip] at length
      simp only [List.size_toArray, length]
      omega
    · obtain ⟨⟨rule, x⟩, -, hrule⟩ :=
        (exists_of_forall₂ (Except.forall₂_of_mapM hts)).2 t (List.mem_toArray.1 ht)
      exact full_of_ruleTable hrule

end Grammar

/-! ## Masks -/

/-- The tokens of a set. -/
def TokenSet.Holds : TokenSet → Nat → Prop
  | .ids tokens, id => id ∈ tokens
  | .bits words, id => words.allows id = true

namespace TokenMask

variable {v : Vocabulary} {m : TokenMask}

theorem pairwise_of_isAscending : ∀ {l : List Nat}, isAscending l = true → l.Pairwise (· < ·)
  | [], _ => .nil
  | [_], _ => List.pairwise_singleton _ _
  | a :: b :: rest, h => by
    simp only [isAscending, Bool.and_eq_true, decide_eq_true_eq] at h
    have later := pairwise_of_isAscending h.2
    refine List.pairwise_cons.2 ⟨fun c hc => ?_, later⟩
    rcases List.mem_cons.1 hc with rfl | hc
    · exact h.1
    · exact h.1.trans ((List.pairwise_cons.1 later).1 c hc)

/-- A mask passes the check against a vocabulary just if it suits the vocabulary. -/
theorem check_eq_ok : m.check v = .ok () ↔ m.Suits v := by
  refine ⟨fun h => ?_, Suits.check⟩
  obtain ⟨accepted, uncertain⟩ := m
  have last (h : (if isAscending uncertain && uncertain.all (· < v.sortedIds.size) then pure ()
      else throw PayloadFault.uncertainOrder : Except PayloadFault Unit) = .ok ()) :
      uncertain.Pairwise (· < ·) ∧ ∀ j ∈ uncertain, j < v.sortedIds.size := by
    split at h
    · rename_i order
      simp only [Bool.and_eq_true, List.all_eq_true, decide_eq_true_eq] at order
      exact ⟨pairwise_of_isAscending order.1, order.2⟩
    · cases h
  cases accepted with
  | ids ids =>
    cases outside : ids.find? (v.size ≤ ·) with
    | some id => simp [TokenMask.check, outside, throw, throwThe, MonadExceptOf.throw, bind, Except.bind] at h
    | none =>
      simp only [TokenMask.check, outside] at h
      obtain ⟨ascending, inside⟩ := last h
      refine ⟨fun id hid => ?_, ascending, inside⟩
      simpa using List.find?_eq_none.1 outside id hid
  | bits bits =>
    by_cases size : bits.size = Bitmask.wordsFor v.size
    · simp only [TokenMask.check, size, ne_eq, not_true_eq_false, if_false] at h
      obtain ⟨ascending, inside⟩ := last h
      exact ⟨size, ascending, inside⟩
    · simp [TokenMask.check, size, throw, throwThe, MonadExceptOf.throw, bind, Except.bind] at h

/-- A token that a mask accepts has its bit in a row, and is one of the vocabulary if the mask lists its
tokens. -/
theorem Suits.holds (h : m.Suits v) {id : Nat} (hid : m.accepted.Holds id) :
    id / 32 < Bitmask.wordsFor v.size ∧ ((∃ ids, m.accepted = .ids ids) → id < v.size) := by
  obtain ⟨accepted, uncertain⟩ := m
  cases accepted with
  | ids ids =>
    have inside : id < v.size := h.accepted id hid
    exact ⟨Bitmask.div_lt_wordsFor inside, fun _ => inside⟩
  | bits bits =>
    have size : bits.size = Bitmask.wordsFor v.size := h.accepted
    exact ⟨size ▸ Bitmask.div_lt_of_allows hid, nofun⟩

/-- The tokens that a mask accepts are those of the row that it makes. -/
theorem Suits.allows_applyTo (h : m.Suits v) (id : Nat) :
    (m.applyTo (Bitmask.zero (Bitmask.wordsFor v.size))).allows id = true ↔ m.accepted.Holds id := by
  obtain ⟨accepted, uncertain⟩ := m
  cases accepted with
  | ids ids =>
    have inside : ∀ id ∈ ids, id / 32 < (Bitmask.zero (Bitmask.wordsFor v.size)).size := fun id hid => by
      rw [Bitmask.size_zero]
      exact Bitmask.div_lt_wordsFor (h.accepted id hid)
    rw [applyTo, Bitmask.allows_foldl_allow ids inside, Bitmask.allows_zero]
    simp [TokenSet.Holds]
  | bits bits =>
    have size : bits.size = Bitmask.wordsFor v.size := h.accepted
    rw [applyTo, Bitmask.allows_union (by rw [Bitmask.size_zero, size]), Bitmask.allows_zero]
    simp [TokenSet.Holds]

end TokenMask

/-! ## Compiled grammars -/

/-- A member of a list of lists is found behind the lists before its own. -/
theorem getElem?_flatten {α : Type} : ∀ {ls : List (List α)} {r s : Nat} {l : List α} {a : α},
    ls[r]? = some l → l[s]? = some a → ls.flatten[((ls.map List.length).take r).sum + s]? = some a
  | l :: ls, 0, s, _, a, rfl, ha => by
    have hs : s < l.length := (List.getElem?_eq_some_iff.1 ha).1
    simpa [List.getElem?_append_left hs] using ha
  | l :: ls, r + 1, s, l', a, hl, ha => by
    have later := getElem?_flatten (show ls[r]? = some l' by simpa using hl) ha
    rw [List.map_cons, List.take_succ_cons, List.sum_cons, List.flatten_cons,
      List.getElem?_append_right (by omega), Nat.add_assoc, Nat.add_sub_cancel_left, later]

namespace Compiled

/-- Where the states of a rule start among the states of all rules. -/
def offset (c : Compiled) (r : RuleId) : Nat := ((c.tables.toList.map Table.size).take r).sum

/-- The number of a state among the states of all rules. -/
def flatIndex (c : Compiled) (r : RuleId) (s : StateId) : Nat := c.offset r + s

/-- The mask of a state, if all lookups on the way to it stay inside. -/
def maskAt? (c : Compiled) (r : RuleId) (s : StateId) : Option TokenMask := do
  c.pool.masks[← c.pool.flatPlaces[c.flatIndex r s]?]?

/-- What lookups in a compiled grammar rely on. -/
structure Sound (c : Compiled) : Prop where
  /-- Transitions and calls lead to states and rules that there are. -/
  regular : c.Regular
  /-- The rules can be told apart with 16 bits. -/
  rules_lt : c.tables.size < stateLimit
  full : ∀ t ∈ c.tables, t.Full
  /-- The states of all rules can be counted with 32 bits. -/
  states : Payload.Fits32 c.stateCount
  flatIndex_lt : ∀ r < c.tables.size, ∀ s < (c.table r).size, c.flatIndex r s < c.stateCount
  maskAt : ∀ r < c.tables.size, ∀ s < (c.table r).size, c.maskAt? r s = some (c.mask r s)
  suits : ∀ r < c.tables.size, ∀ s < (c.table r).size, (c.mask r s).Suits c.vocabulary

variable {c : Compiled}

theorem stateCount_eq (c : Compiled) : c.stateCount = (c.tables.toList.map Table.size).sum := by
  rw [stateCount, ← Array.foldl_toList, List.sum_eq_foldl, List.foldl_map]

theorem getElem?_sizes {r : RuleId} (hr : r < c.tables.size) :
    (c.tables.toList.map Table.size)[r]? = some (c.table r).size := by
  simp [table, Array.getD_eq_getD_getElem?, hr]

/-- What is made of the tables of a valid grammar and of masks that suit the vocabulary. -/
theorem Sound.of_parts (hl : c.lowered.Valid) (hts : c.lowered.tables = .ok c.tables)
    (sizes : c.tables.toList.map Table.size = c.pool.places.toList.map Array.size)
    (masks : ∀ i ∈ c.pool.flatPlaces, ∃ m, c.pool.masks[i]? = some m ∧ m.Suits c.vocabulary) : c.Sound := by
  obtain ⟨rules_lt, full⟩ := Grammar.full_of_tables hts
  have mask (r : Nat) (hr : r < c.tables.size) (s : Nat) (hs : s < (c.table r).size) :
      c.flatIndex r s < c.stateCount ∧ c.maskAt? r s = some (c.mask r s) ∧
        (c.mask r s).Suits c.vocabulary := by
    have hsizes := sizes ▸ getElem?_sizes hr
    obtain ⟨places, hplaces, size⟩ :
        ∃ places, c.pool.places[r]? = some places ∧ places.size = (c.table r).size := by
      simpa using hsizes
    obtain ⟨i, hi⟩ : ∃ i, places[s]? = some i := ⟨_, Array.getElem?_eq_getElem (size ▸ hs)⟩
    have flat : c.pool.flatPlaces[c.flatIndex r s]? = some i := by
      have := getElem?_flatten
        (show (c.pool.places.toList.map Array.toList)[r]? = some places.toList by simp [hplaces])
        (show places.toList[s]? = some i by simpa using hi)
      rw [flatIndex, offset, sizes, MaskPool.flatPlaces, List.flatMap_def]
      simpa [Function.comp_def] using this
    obtain ⟨m, hm, suits⟩ := masks i (List.mem_of_getElem? flat)
    have mask : c.mask r s = m := by
      simp [Compiled.mask, Array.getD_eq_getD_getElem?, hplaces, hi, hm]
    have inside := (List.getElem?_eq_some_iff.1 flat).1
    rw [MaskPool.length_flatPlaces, ← sizes, ← stateCount_eq] at inside
    exact ⟨inside, by simp [maskAt?, flat, hm, mask], mask ▸ suits⟩
  exact ⟨(network_of_tables hl rfl hts).1, rules_lt, full, stateCount_eq c ▸ Grammar.fits32_sum_sizes hl hts,
    fun r hr s hs => (mask r hr s hs).1, fun r hr s hs => (mask r hr s hs).2.1,
    fun r hr s hs => (mask r hr s hs).2.2⟩

section

variable {hash : Vocabulary.Traits → UInt64} {g : Grammar} {v : Vocabulary}

/-- Lookups in what was compiled stay inside. -/
theorem sound_of_compile (hg : g.Valid) (hv : v.Regular) (h : compile g v = .ok c) : c.Sound := by
  obtain ⟨l, ts, hl, hts, rfl⟩ := compile_eq_ok.1 h
  refine .of_parts (lowered_spec hg hl).1 hts (MaskPool.sizes_ofTables v ts) fun i hi => ?_
  obtain ⟨t, s, hs⟩ := MaskPool.exists_maskOf_of_mem_flatPlaces v ts hi
  exact ⟨_, hs, TokenMask.suits_maskOf hv t s⟩

theorem suits_of_forIn_check {ms : List TokenMask}
    (h : (forIn ms PUnit.unit fun m _ => do
      (m.check v).mapError Error.payload
      pure (.yield PUnit.unit)) = (Except.ok PUnit.unit : Except Error PUnit)) : ∀ m ∈ ms, m.Suits v := by
  induction ms with
  | nil => simp
  | cons m ms ih =>
    rw [List.forIn_cons] at h
    obtain ⟨step, hstep, h⟩ := Except.bind_eq_ok.1 h
    obtain ⟨u, hm, hstep⟩ := Except.bind_eq_ok.1 hstep
    obtain rfl := Except.ok.inj hstep
    exact List.forall_mem_cons.2 ⟨TokenMask.check_eq_ok.1 (Except.mapError_eq_ok.1 hm), ih h⟩

theorem not_throw_bind {α β ε : Type} {e : ε} {f : α → Except ε β} {b : β} :
    (throw e >>= f : Except ε β) ≠ .ok b := nofun

/-- What is read from a payload: the masks suit the vocabulary, and there is a place among them for each
state. -/
theorem record_of_deserialize {text : String} (h : deserialize hash text v = .ok c) : ∃ record : Record,
    c.lowered.Valid ∧ c.lowered.tables = .ok c.tables ∧ c.vocabulary = v ∧
      record.places.length = (c.tables.toList.map Table.size).sum ∧ (∀ m ∈ record.masks, m.Suits v) ∧
      (∀ k ∈ record.places, k < record.masks.length) ∧ c.pool = ⟨record.masks.toArray,
        ((cut (c.tables.toList.map Table.size) record.places).map List.toArray).toArray⟩ := by
  obtain ⟨payload, -, h⟩ := Except.bind_eq_ok.1 h
  split at h
  · simp [throw, throwThe, MonadExceptOf.throw] at h
  · rename_i record _
    simp only at h
    split at h
    · exact absurd h not_throw_bind
    obtain ⟨g, hg, h⟩ := Except.bind_eq_ok.1 h
    obtain ⟨l, hl, h⟩ := Except.bind_eq_ok.1 h
    obtain ⟨ts, hts, h⟩ := Except.bind_eq_ok.1 h
    split at h
    · exact absurd h not_throw_bind
    · rename_i count
      obtain ⟨_, hmasks, h⟩ := Except.bind_eq_ok.1 h
      split at h
      · simp [throw, throwThe, MonadExceptOf.throw] at h
      · rename_i inside
        obtain rfl := Except.ok.inj h
        refine ⟨record, ?_, Except.mapError_eq_ok.1 hts, rfl, ?_, suits_of_forIn_check hmasks, fun k hk => ?_, rfl⟩
        · exact (lowered_spec (Grammar.valid_of_deserialize (Except.mapError_eq_ok.1 hg)).1
            (Except.mapError_eq_ok.1 hl)).1
        · rw [List.sum_eq_foldl]
          exact not_not.1 count
        · simpa using List.find?_eq_none.1 inside k hk

/-- Lookups in what was read from a payload stay inside, whoever wrote the payload. -/
theorem sound_of_deserialize {text : String} (h : deserialize hash text v = .ok c) :
    c.Sound ∧ c.vocabulary = v := by
  obtain ⟨record, hl, hts, rfl, count, suits, inside, hpool⟩ := record_of_deserialize h
  refine ⟨.of_parts hl hts ?_ fun i hi => ?_, rfl⟩
  · simp only [hpool, List.map_map, Function.comp_def, List.size_toArray]
    exact (MaskPool.map_length_cut count).symm
  · have places : c.pool.flatPlaces = record.places := by
      simp [MaskPool.flatPlaces, hpool, List.flatMap_def, Function.comp_def, MaskPool.flatten_cut count]
    have hi := inside i (places ▸ hi)
    exact ⟨record.masks[i], by simp [hpool, hi], suits _ (List.getElem_mem hi)⟩

end

end Compiled

end ConstrainedDecoding
