import ConstrainedDecoding.Automaton.OfGrammar
import ConstrainedDecoding.Proofs.Dfa

/-!
# What tables read

The table of a rule reads the words of the rule's expansion, and leads nowhere outside itself.
-/
namespace ConstrainedDecoding

open Letter

namespace Table

/-! ## Rows -/

theorem size_fillRow (entry : UInt16) (count : Nat) : ∀ (start : Nat) (row : Array UInt16),
    (fillRow entry start count row).size = row.size := by
  induction count with
  | zero => exact fun _ _ => rfl
  | succ count ih => exact fun start row => (ih _ _).trans (by simp)

theorem getD_fillRow (entry d : UInt16) (b count : Nat) : ∀ (start : Nat) (row : Array UInt16),
    b < row.size → (fillRow entry start count row).getD b d =
      if start ≤ b ∧ b < start + count then entry else row.getD b d := by
  induction count with
  | zero =>
    intro start row _
    rw [fillRow, if_neg (by omega)]
  | succ count ih =>
    intro start row hb
    rw [fillRow, ih _ _ (by simpa using hb)]
    by_cases h : start = b
    · subst h
      simp [Array.getD_eq_getD_getElem?, hb]
    · by_cases hin : start + 1 ≤ b ∧ b < start + 1 + count
      · rw [if_pos hin, if_pos (by omega)]
      · rw [if_neg hin, if_neg (by omega)]
        simp [Array.getD_eq_getD_getElem?, h]

theorem size_fillRange (row : Array UInt16) (range : Nat × Nat × StateId) :
    (fillRange row range).size = row.size :=
  size_fillRow _ _ _ _

theorem getD_fillRange (row : Array UInt16) (lo hi : Nat) (t : StateId) {b : Nat}
    (hb : b < row.size) : (fillRange row (lo, hi, t)).getD b noTransition =
      if lo ≤ b ∧ b ≤ hi then UInt16.ofNat t else row.getD b noTransition := by
  have range : lo ≤ b ∧ b < lo + (hi + 1 - lo) ↔ lo ≤ b ∧ b ≤ hi := by omega
  exact (getD_fillRow _ _ _ _ _ _ hb).trans (if_congr range rfl rfl)

private theorem getD_foldl_fillRange (bytes : List (Nat × Nat × StateId)) {b : Nat} :
    ∀ row : Array UInt16, b < row.size →
      (∃ lo hi t, (lo, hi, t) ∈ bytes ∧ (lo ≤ b ∧ b ≤ hi) ∧
        (bytes.foldl fillRange row).getD b noTransition = UInt16.ofNat t) ∨
      (∀ lo hi t, (lo, hi, t) ∈ bytes → ¬ (lo ≤ b ∧ b ≤ hi)) ∧
        (bytes.foldl fillRange row).getD b noTransition = row.getD b noTransition := by
  induction bytes with
  | nil => simp
  | cons e bytes ih =>
    intro row hrow
    obtain ⟨lo, hi, t⟩ := e
    rw [List.foldl_cons]
    rcases ih (fillRange row (lo, hi, t)) (by rwa [size_fillRange]) with
      ⟨lo', hi', t', hmem, hin, heq⟩ | ⟨hout, heq⟩
    · exact Or.inl ⟨lo', hi', t', List.mem_cons_of_mem _ hmem, hin, heq⟩
    · rw [getD_fillRange _ _ _ _ hrow] at heq
      by_cases h : lo ≤ b ∧ b ≤ hi
      · rw [if_pos h] at heq
        exact Or.inl ⟨lo, hi, t, List.mem_cons_self, h, heq⟩
      · rw [if_neg h] at heq
        refine Or.inr ⟨fun lo' hi' t' hmem => ?_, heq⟩
        rcases List.mem_cons.1 hmem with hmem | hmem
        · obtain ⟨rfl, rfl, rfl⟩ : lo' = lo ∧ hi' = hi ∧ t' = t := by simpa using hmem
          exact h
        · exact hout lo' hi' t' hmem

/-- The entry for a byte comes from a range that holds the byte, if there is one. -/
theorem getD_rowOf (bytes : List (Nat × Nat × StateId)) {b : Nat} (hb : b < 256) :
    (∃ lo hi t, (lo, hi, t) ∈ bytes ∧ (lo ≤ b ∧ b ≤ hi) ∧
      (rowOf bytes).getD b noTransition = UInt16.ofNat t) ∨
    (∀ lo hi t, (lo, hi, t) ∈ bytes → ¬ (lo ≤ b ∧ b ≤ hi)) ∧
      (rowOf bytes).getD b noTransition = noTransition := by
  have none : (Array.replicate 256 noTransition).getD b noTransition = noTransition := by
    simp [Array.getD_eq_getD_getElem?, hb]
  have size : b < (Array.replicate 256 noTransition).size := by rwa [Array.size_replicate]
  have fold := getD_foldl_fillRange bytes _ size
  rwa [none] at fold

/-! ## Words -/

/-- A word leads from a state to an accepting one. -/
def Accepts (t : Table) : StateId → List Letter → Prop
  | s, [] => t.accepts s = true
  | s, .byte b :: w => ∃ s', t.next? s b = some s' ∧ t.Accepts s' w
  | s, .call r :: w => ∃ s', (r, s') ∈ t.callsOf s ∧ t.Accepts s' w

/-- Transitions lead to states of the table, and calls name rules below `rules`. The states from which
a byte leads somewhere, and no others, are marked as those that read. -/
structure InRange (t : Table) (rules : Nat) : Prop where
  pos : 0 < t.size
  size_lt : t.size < stateLimit
  next_lt : ∀ s b s', t.next? s b = some s' → s' < t.size
  lt_of_next : ∀ s b s', t.next? s b = some s' → s < t.size
  scans : ∀ s b s', t.next? s b = some s' → t.scansAt s = true
  next_of_scans : ∀ s, t.scansAt s = true → ∃ b s', t.next? s b = some s'
  call_lt : ∀ s r s', (r, s') ∈ t.callsOf s → r < rules ∧ s' < t.size

section

variable {d : Dfa} {s : StateId}

theorem next?_ofDfa {st : Dfa.State} (hs : d.states[s]? = some st) (b : UInt8) :
    (ofDfa d).next? s b =
      let e := (rowOf st.bytes).getD b.toNat noTransition
      if e = noTransition then none else some e.toNat := by
  simp [next?, entry, ofDfa, Array.getD_eq_getD_getElem?, hs]

theorem next?_ofDfa_of_none (hs : d.states[s]? = none) (b : UInt8) :
    (ofDfa d).next? s b = none := by
  simp [next?, entry, ofDfa, Array.getD_eq_getD_getElem?, hs]

theorem callsOf_ofDfa {st : Dfa.State} (hs : d.states[s]? = some st) :
    (ofDfa d).callsOf s = st.calls := by
  simp [callsOf, ofDfa, Array.getD_eq_getD_getElem?, hs]

theorem callsOf_ofDfa_of_none (hs : d.states[s]? = none) : (ofDfa d).callsOf s = [] := by
  simp [callsOf, ofDfa, Array.getD_eq_getD_getElem?, hs]

theorem accepts_ofDfa {st : Dfa.State} (hs : d.states[s]? = some st) :
    (ofDfa d).accepts s = st.accepts := by
  simp [accepts, ofDfa, Array.getD_eq_getD_getElem?, hs]

theorem scansAt_ofDfa {st : Dfa.State} (hs : d.states[s]? = some st) :
    (ofDfa d).scansAt s = true ↔ st.bytes ≠ [] := by
  simp [scansAt, ofDfa, Array.getD_eq_getD_getElem?, hs]

theorem not_scansAt_ofDfa_of_none (hs : d.states[s]? = none) : (ofDfa d).scansAt s ≠ true := by
  simp [scansAt, ofDfa, Array.getD_eq_getD_getElem?, hs]

/-- A state whose table leads somewhere has byte edges. -/
theorem bytes_ne_nil_of_next? {st : Dfa.State} {b : UInt8} {s' : StateId} (hs : d.states[s]? = some st)
    (hnext : (ofDfa d).next? s b = some s') : st.bytes ≠ [] := by
  rw [next?_ofDfa hs b] at hnext
  rcases getD_rowOf st.bytes b.toNat_lt with ⟨_, _, _, hmem, -⟩ | ⟨-, hentry⟩
  · exact List.ne_nil_of_mem hmem
  · simp [hentry] at hnext

end

/-- Numbers of states keep their value as entries, which lead somewhere. -/
theorem entry_of_lt {s : Nat} (h : s < stateLimit) :
    (UInt16.ofNat s).toNat = s ∧ UInt16.ofNat s ≠ noTransition := by
  have value : (UInt16.ofNat s).toNat = s := by
    rw [UInt16.toNat_ofNat', Nat.mod_eq_of_lt]
    exact h.trans (by decide)
  refine ⟨value, fun heq => ?_⟩
  have hlimit : noTransition.toNat = stateLimit := by decide
  rw [← heq, value] at hlimit
  exact absurd hlimit h.ne

/-- A state stands for each of the sets. -/
theorem exists_state_of_set {n : Nfa} {sets : Array (List StateId)} {d : Dfa} (h : n.Determines sets d)
    {s : Nat} {set : List StateId} (hs : sets[s]? = some set) :
    ∃ st, d.states[s]? = some st ∧ n.Stands sets set st := by
  have hlt : s < d.states.size := by
    rw [h.size]
    exact (Array.getElem?_eq_some_iff.1 hs).1
  have hst : d.states[s]? = some d.states[s] := by simp [hlt]
  obtain ⟨set', hs', stands⟩ := h.stands s _ hst
  obtain rfl : set = set' := Option.some.inj (hs.symm.trans hs')
  exact ⟨d.states[s], hst, stands⟩

/-- Where a byte leads in the table of an automaton that stands for sets of states. -/
theorem next?_iff {n : Nfa} {sets : Array (List StateId)} {d : Dfa} (h : n.Determines sets d)
    {s : Nat} {set : List StateId} (hs : sets[s]? = some set) (b : UInt8) :
    (∃ s' targets, (ofDfa d).next? s b = some s' ∧
      (∀ t, t ∈ targets ↔ n.LeadsTo set (.byte b) t) ∧ sets[s']? = some (n.closure targets)) ∨
    (ofDfa d).next? s b = none ∧ ∀ t, ¬ n.LeadsTo set (.byte b) t := by
  obtain ⟨st, hst, stands⟩ := exists_state_of_set h hs
  rw [next?_ofDfa hst b]
  rcases getD_rowOf st.bytes b.toNat_lt with ⟨lo, hi, t, hmem, hin, heq⟩ | ⟨hout, heq⟩
  · obtain ⟨targets, htargets, hset⟩ := stands.byte lo hi t hmem b hin.1 hin.2
    obtain ⟨hval, hne⟩ := entry_of_lt ((Array.getElem?_eq_some_iff.1 hset).1.trans h.size_lt)
    refine Or.inl ⟨t, targets, ?_, htargets, hset⟩
    simp only [heq, if_neg hne, hval]
  · refine Or.inr ⟨by simp [heq], fun t ht => ?_⟩
    obtain ⟨lo, hi, j, hmem, hin⟩ := stands.byte_covers b t ht
    exact hout lo hi j hmem hin

theorem inRange_ofDfa {n : Nfa} {rules : Nat} (hn : n.InRange rules)
    {sets : Array (List StateId)} {d : Dfa} (h : n.Determines sets d) :
    (ofDfa d).InRange rules := by
  have size : (ofDfa d).size = sets.size := by simp [Table.size, ofDfa, h.size]
  have lt_size {i : Nat} {set : List StateId} (hi : sets[i]? = some set) : i < (ofDfa d).size := by
    rw [size]
    exact (Array.getElem?_eq_some_iff.1 hi).1
  have next (s : StateId) (b : UInt8) (s' : StateId) (hs : (ofDfa d).next? s b = some s') :
      ∃ st, d.states[s]? = some st ∧ s' < (ofDfa d).size := by
    cases hst : d.states[s]? with
    | none => simp [next?_ofDfa_of_none hst] at hs
    | some st =>
      obtain ⟨set, hset, -⟩ := h.stands s st hst
      rcases next?_iff h hset b with ⟨s'', targets, hs'', -, hset'⟩ | ⟨hnone, -⟩
      · obtain rfl : s' = s'' := Option.some.inj (hs.symm.trans hs'')
        exact ⟨st, rfl, lt_size hset'⟩
      · simp [hnone] at hs
  constructor
  case pos => exact lt_size h.start
  case size_lt => exact size ▸ h.size_lt
  case next_lt =>
    intro s b s' hs
    obtain ⟨-, -, hlt⟩ := next s b s' hs
    exact hlt
  case lt_of_next =>
    intro s b s' hs
    obtain ⟨st, hst, -⟩ := next s b s' hs
    obtain ⟨set, hset, -⟩ := h.stands s st hst
    exact lt_size hset
  case scans =>
    intro s b s' hs
    obtain ⟨st, hst, -⟩ := next s b s' hs
    exact (scansAt_ofDfa hst).2 (bytes_ne_nil_of_next? hst hs)
  case next_of_scans =>
    intro s scans
    cases hst : d.states[s]? with
    | none => exact absurd scans (not_scansAt_ofDfa_of_none hst)
    | some st =>
      obtain ⟨set, hset, stands⟩ := h.stands s st hst
      obtain ⟨b, t, leads⟩ := stands.byte_leads ((scansAt_ofDfa hst).1 scans)
      rcases next?_iff h hset b with ⟨s', -, hs', -⟩ | ⟨-, hno⟩
      · exact ⟨b, s', hs'⟩
      · exact absurd leads (hno t)
  case call_lt =>
    intro s r s' hs
    cases hst : d.states[s]? with
    | none => simp [callsOf_ofDfa_of_none hst] at hs
    | some st =>
      rw [callsOf_ofDfa hst] at hs
      obtain ⟨set, hset, stands⟩ := h.stands s st hst
      obtain ⟨⟨t, q, hq, edge, hedge, ha, -⟩, targets, -, hset'⟩ := stands.call r s' hs
      cases edge with
      | call r' t' =>
        cases ha
        exact ⟨hn.call_lt _ _ _ hedge, lt_size hset'⟩
      | silent t' => cases ha
      | byte lo hi t' =>
        obtain ⟨_, ⟨b, -, -, rfl⟩, hb⟩ := mem_ofBytes.1 ha
        simp at hb

/-- A state reads the words that lead from its set to an end. -/
theorem accepts_iff {n : Nfa} {sets : Array (List StateId)} {d : Dfa} (h : n.Determines sets d)
    (w : List Letter) :
    ∀ (s : Nat) (set : List StateId), sets[s]? = some set →
      ((ofDfa d).Accepts s w ↔ w ∈ n.words set) := by
  induction w with
  | nil =>
    intro s set hs
    obtain ⟨st, hst, stands⟩ := exists_state_of_set h hs
    rw [Accepts, accepts_ofDfa hst, stands.accepts, Nfa.nil_mem_words (h.closed s set hs)]
  | cons a w ih =>
    intro s set hs
    have closed := h.closed s set hs
    cases a with
    | byte b =>
      rw [Accepts]
      rcases next?_iff h hs b with ⟨s', targets, hs', htargets, hset'⟩ | ⟨hnone, hno⟩
      · rw [Nfa.cons_mem_words closed htargets (Nfa.closureOf_closure n targets),
          ← ih s' _ hset', hs']
        simp
      · simp only [hnone, reduceCtorEq, false_and, exists_false, false_iff]
        exact Nfa.words_eq_zero_of_not_leadsTo closed hno w
    | call r =>
      obtain ⟨st, hst, stands⟩ := exists_state_of_set h hs
      rw [Accepts, callsOf_ofDfa hst]
      constructor
      · rintro ⟨s', hs', hw⟩
        obtain ⟨-, targets, htargets, hset'⟩ := stands.call r s' hs'
        rw [Nfa.cons_mem_words closed htargets (Nfa.closureOf_closure n targets)]
        exact (ih s' _ hset').1 hw
      · intro hw
        by_cases hno : ∀ t, ¬ n.LeadsTo set (.call r) t
        · exact absurd hw (Nfa.words_eq_zero_of_not_leadsTo closed hno w)
        · obtain ⟨t, ht⟩ := not_forall_not.1 hno
          obtain ⟨s', hs'⟩ := stands.call_covers r t ht
          obtain ⟨-, targets, htargets, hset'⟩ := stands.call r s' hs'
          rw [Nfa.cons_mem_words closed htargets (Nfa.closureOf_closure n targets)] at hw
          exact ⟨s', hs', (ih s' _ hset').2 hw⟩

end Table

namespace Grammar

/-- The table of a rule reads the words of the rule's expansion. -/
theorem ruleTable_spec {rule : Rule} {x : Expansion} {rules : Nat} {t : Table} (hx : x.Fits rules)
    (h : ruleTable rule x = .ok t) :
    t.InRange rules ∧ ∀ w, t.Accepts 0 w ↔ w ∈ x.words := by
  unfold ruleTable at h
  split at h
  · rename_i d hd
    obtain rfl := Except.ok.inj h
    obtain ⟨hn, hstart, hends, hsize, hwords⟩ := Expansion.nfa_spec hx
    obtain ⟨sets, hdet⟩ := Nfa.toDfa?_spec hd
    refine ⟨Table.inRange_ofDfa hn hdet, fun w => ?_⟩
    rw [Table.accepts_iff hdet w 0 _ hdet.start, Nfa.mem_words_closure_start, ← hwords, Nfa.Accepts,
      hstart]
    constructor
    · rintro ⟨e, ⟨he, -⟩, hp⟩
      obtain rfl : e = 1 := by simpa [hends] using he
      exact hp
    · exact fun hp => ⟨1, ⟨by simp [hends], hsize⟩, hp⟩
  · simp at h

/-- The tables of a grammar read what its expansions allow. -/
theorem tables_spec {g : Grammar} (hg : g.Valid) {ts : Array Table} (h : g.tables = .ok ts) :
    ts.size = g.rules.size ∧ ∀ (r : Nat) (t : Table), ts[r]? = some t →
      t.InRange g.rules.size ∧ ∀ w, t.Accepts 0 w ↔ w ∈ g.network r := by
  unfold tables at h
  split at h
  · simp at h
  · obtain ⟨ts', hts, h⟩ := Except.bind_eq_ok.1 h
    obtain rfl := Except.ok.inj h
    have size : g.expansions.size = g.rules.size := by simp [expansions, ruleTrees]
    have length := Except.length_of_mapM hts
    refine ⟨by simpa [size] using length, fun r t ht => ?_⟩
    have hr : r < ts'.length := (List.getElem?_eq_some_iff.1 (by simpa using ht)).1
    have hr' : r < g.rules.size := by simpa [length, size] using hr
    obtain ⟨x, hx⟩ : ∃ x, g.expansions[r]? = some x := ⟨_, Array.getElem?_eq_getElem (size ▸ hr')⟩
    have hzip : (g.rules.zip g.expansions).toList[r]? = some (g.rules[r], x) := by
      simp [List.getElem?_zip_eq_some, hr', hx]
    obtain ⟨t', ht', hrule⟩ := Except.getElem?_of_mapM hts r hzip
    obtain rfl : t' = t := Option.some.inj (ht'.symm.trans (by simpa using ht))
    obtain ⟨hrange, hwords⟩ := ruleTable_spec (hg.fits_expansions hx) hrule
    refine ⟨hrange, fun w => ?_⟩
    rw [hwords, network, hx]

end Grammar

end ConstrainedDecoding
