import ConstrainedDecoding.Proofs.Table

/-!
# Deterministic automata

The subset construction keeps the words that an automaton accepts, also when the result is followed
through its table. The states that it makes lead at most one way on each letter, their numbers fit the
entries of a table, and each of them can be reached.
-/
namespace ConstrainedDecoding

/-! ## Transitions -/

/-- A letter leads from a deterministic state to the state with a number. -/
def Dfa.State.Moves (st : Dfa.State) : Letter → StateId → Prop
  | .byte b, s => ∃ lo hi, (lo, hi, s) ∈ st.bytes ∧ lo ≤ b.toNat ∧ b.toNat ≤ hi
  | .call r, s => (r, s) ∈ st.calls

/-- The ranges of bytes that a state reads lie apart, and it calls each rule once. -/
structure Dfa.State.Deterministic (st : Dfa.State) : Prop where
  range : ∀ e ∈ st.bytes, e.1 ≤ e.2.1 ∧ e.2.1 < 256
  apart : st.bytes.Pairwise fun e e' => e.2.1 < e'.1
  once : (st.calls.map Prod.fst).Pairwise (· < ·)

/-- A letter leads at most one way. -/
theorem Dfa.State.Deterministic.unique {st : Dfa.State} (h : st.Deterministic) {a : Letter}
    {s s' : StateId} (hs : st.Moves a s) (hs' : st.Moves a s') : s = s' := by
  cases a with
  | byte b =>
    obtain ⟨lo, hi, he, hl, hh⟩ := hs
    obtain ⟨lo', hi', he', hl', hh'⟩ := hs'
    by_contra hne
    have : Std.Symm fun e e' : Nat × Nat × StateId => e.2.1 < e'.1 ∨ e'.2.1 < e.1 :=
      ⟨fun _ _ => Or.symm⟩
    have apart := (h.apart.imp fun {e e'} h => (Or.inl h : e.2.1 < e'.1 ∨ e'.2.1 < e.1)).forall
      he he' (by simp [hne])
    simp only at apart
    omega
  | call r =>
    have nodup : (st.calls.map Prod.fst).Nodup := h.once.imp fun h => h.ne
    exact congrArg Prod.snd (List.inj_on_of_nodup_map nodup hs hs' rfl)

namespace Table

/-- A letter leads from a state of a table to another state. -/
def Moves (t : Table) (s : StateId) : Letter → StateId → Prop
  | .byte b, s' => t.next? s b = some s'
  | .call r, s' => (r, s') ∈ t.callsOf s

/-- A word leads from a state of a table to another state. -/
def Leads (t : Table) : StateId → List Letter → StateId → Prop
  | s, [], u => s = u
  | s, a :: w, u => ∃ s', t.Moves s a s' ∧ t.Leads s' w u

variable {t : Table}

theorem Leads.concat {a : Letter} {u u' : StateId} {w : List Letter} (ha : t.Moves u a u') :
    ∀ {s : StateId}, t.Leads s w u → t.Leads s (w ++ [a]) u' := by
  induction w with
  | nil =>
    rintro s rfl
    exact ⟨u', ha, rfl⟩
  | cons b w ih =>
    rintro s ⟨s', hb, hw⟩
    exact ⟨s', hb, ih hw⟩

/-- A word is accepted if it leads to an accepting state. -/
theorem accepts_iff_leads (w : List Letter) : ∀ {s : StateId},
    t.Accepts s w ↔ ∃ u, t.Leads s w u ∧ t.accepts u = true := by
  induction w with
  | nil => simp [Accepts, Leads]
  | cons a w ih =>
    intro s
    have step : t.Accepts s (a :: w) ↔ ∃ s', t.Moves s a s' ∧ t.Accepts s' w := by
      cases a <;> rfl
    simp only [step, ih, Leads]
    constructor
    · rintro ⟨s', ha, u, hw, hu⟩
      exact ⟨u, ⟨s', ha, hw⟩, hu⟩
    · rintro ⟨u, ⟨s', ha, hw⟩, hu⟩
      exact ⟨s', ha, u, hw, hu⟩

end Table

/-! ## States that stand for sets -/

namespace Nfa

variable {n : Nfa} {sets : Array (List StateId)} {set : List StateId} {st : Dfa.State}

theorem Stands.deterministic (h : n.Stands sets set st) : st.Deterministic :=
  ⟨h.byte_range, h.byte_order, h.call_order⟩

/-- A letter leads to a state that stands for a set. -/
theorem Stands.lt_of_moves (h : n.Stands sets set st) {a : Letter} {s : StateId} (hs : st.Moves a s) :
    s < sets.size := by
  cases a with
  | byte b =>
    obtain ⟨lo, hi, he, hl, hh⟩ := hs
    obtain ⟨targets, -, hset⟩ := h.byte lo hi s he b hl hh
    exact (Array.getElem?_eq_some_iff.1 hset).1
  | call r =>
    obtain ⟨-, targets, -, hset⟩ := h.call r s hs
    exact (Array.getElem?_eq_some_iff.1 hset).1

theorem Stands.exists_moves (h : n.Stands sets set st) {s : Nat} (hs : LeadsOn st s) :
    ∃ a, st.Moves a s := by
  rcases hs with ⟨lo, hi, he⟩ | ⟨r, hr⟩
  · obtain ⟨hle, hlt⟩ := h.byte_range _ he
    have value : (UInt8.ofNat lo).toNat = lo := UInt8.toNat_ofNat_of_lt' (hle.trans_lt hlt)
    exact ⟨.byte (UInt8.ofNat lo), lo, hi, he, value.ge, value.le.trans hle⟩
  · exact ⟨.call r, hr⟩

variable {d : Dfa} {s : Nat}

/-- The table of a deterministic automaton has the transitions of its states. -/
theorem Determines.moves_iff (h : n.Determines sets d) (hst : d.states[s]? = some st) (a : Letter)
    (s' : StateId) : (Table.ofDfa d).Moves s a s' ↔ st.Moves a s' := by
  obtain ⟨set, -, stands⟩ := h.stands s st hst
  cases a with
  | byte b =>
    rw [Table.Moves, Table.next?_ofDfa hst b]
    rcases Table.getD_rowOf st.bytes b.toNat_lt with ⟨lo, hi, u, he, hin, heq⟩ | ⟨hout, heq⟩
    · have hu : st.Moves (.byte b) u := ⟨lo, hi, he, hin⟩
      obtain ⟨value, leads⟩ := Table.entry_of_lt ((stands.lt_of_moves hu).trans h.size_lt)
      simp only [heq, if_neg leads, value, Option.some.injEq]
      exact ⟨fun hs => hs ▸ hu, fun hs => stands.deterministic.unique hu hs⟩
    · simp only [heq, if_true, reduceCtorEq, false_iff]
      rintro ⟨lo, hi, he, hin⟩
      exact hout lo hi s' he hin
  | call r => rw [Table.Moves, Table.callsOf_ofDfa hst, Dfa.State.Moves]

/-- Each state can be reached from the first one. -/
theorem Determines.exists_leads (h : n.Determines sets d) (hs : s < sets.size) :
    ∃ w, (Table.ofDfa d).Leads 0 w s := by
  induction s using Nat.strong_induction_on with
  | _ s ih =>
    rcases h.found s hs with rfl | ⟨k, hk, st, hst, leads⟩
    · exact ⟨[], rfl⟩
    · obtain ⟨set, -, stands⟩ := h.stands k st hst
      obtain ⟨a, ha⟩ := stands.exists_moves leads
      obtain ⟨w, hw⟩ := ih k hk (hk.trans hs)
      exact ⟨w ++ [a], hw.concat ((h.moves_iff hst a s).2 ha)⟩

/-- If an automaton has few enough sets of states, the deterministic automaton of these sets, followed
through its table, accepts the same words of bytes and calls. From each of its states a letter leads
at most one way: the ranges of bytes lie apart, and each rule is called once. The table has just these
transitions, as the number of each state keeps its value as an entry and is not the entry for a byte
that leads nowhere. Each state can be reached from the first one. -/
theorem toDfa?_preserves_words (h : n.toDfa? = some d) :
    let t := Table.ofDfa d
    (∀ w, n.Accepts w ↔ ∃ s, t.Leads 0 w s ∧ t.accepts s = true) ∧
    ∀ (s : Nat) (st : Dfa.State), d.states[s]? = some st →
      st.Deterministic ∧ (∀ a s' s'', st.Moves a s' → st.Moves a s'' → s' = s'') ∧
      (∀ a s', t.Moves s a s' ↔ st.Moves a s') ∧ (∀ a s', t.Moves s a s' → s' < d.states.size) ∧
      s < stateLimit - 1 ∧ (UInt16.ofNat s).toNat = s ∧ UInt16.ofNat s ≠ Table.noTransition ∧
      ∃ w, t.Leads 0 w s := by
  intro t
  obtain ⟨sets, det⟩ := toDfa?_spec h
  refine ⟨fun w => ?_, fun s st hst => ?_⟩
  · rw [← mem_words_closure_start, ← Table.accepts_iff det w 0 _ det.start, Table.accepts_iff_leads]
  · obtain ⟨set, hset, stands⟩ := det.stands s st hst
    have hlt : s < sets.size := (Array.getElem?_eq_some_iff.1 hset).1
    have hlimit := det.size_lt
    obtain ⟨value, leads⟩ := Table.entry_of_lt (hlt.trans hlimit)
    refine ⟨stands.deterministic, fun a s' s'' => stands.deterministic.unique, det.moves_iff hst,
      fun a s' hs' => ?_, by omega, value, leads, det.exists_leads hlt⟩
    exact det.size ▸ stands.lt_of_moves ((det.moves_iff hst a s').1 hs')

/-- Two ranges of bytes that overlap, a silent edge, and two calls of the same rule. -/
def overlapping : Nfa where
  edges := #[[.byte 97 99 1, .byte 98 100 2], [.silent 2, .call 0 3], [.call 0 1], []]
  start := 0
  ends := [3]

/-- A word is accepted through the table of the deterministic automaton, and leads to a proper state. -/
theorem overlapping_preserves_words : ∃ d, overlapping.toDfa? = some d ∧
    ∃ s, (Table.ofDfa d).Leads 0 [.byte 98, .call 0] s ∧ (Table.ofDfa d).accepts s = true := by
  have found : overlapping.toDfa?.isSome = true := by decide +kernel
  obtain ⟨d, hd⟩ := Option.isSome_iff_exists.1 found
  have path : overlapping.Path 0 ([.byte 98] ++ ([.call 0] ++ [])) 3 :=
    .edge (e := .byte 97 99 1) (by decide) (Letter.mem_ofBytes.2 ⟨[98], ⟨98, by decide, by decide, rfl⟩, rfl⟩)
      (.edge (e := .call 0 3) (by decide) rfl (.nil 3))
  exact ⟨d, hd, ((toDfa?_preserves_words hd).1 _).1 ⟨3, ⟨by decide, by decide⟩, path⟩⟩

end Nfa

end ConstrainedDecoding
