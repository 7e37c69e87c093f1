import ConstrainedDecoding.Proofs.Folds
import ConstrainedDecoding.Proofs.Pieces
import ConstrainedDecoding.Proofs.Reach
import ConstrainedDecoding.Proofs.Wiring

/-!
# The subset construction

Each state of the deterministic automaton stands for a set of states that is closed under silent
edges, and leads on a byte or a call to the state that stands for the set that the byte or the call
leads to.
-/
namespace ConstrainedDecoding

open Letter

namespace Nfa

/-! ## Accepting -/

/-- A state of the automaton at which it accepts. -/
def IsEnd (n : Nfa) (e : StateId) : Prop := e ∈ n.ends ∧ e < n.edges.size

/-- A word leads from the start to an accepting state. -/
def Accepts (n : Nfa) (w : List Letter) : Prop := ∃ e, n.IsEnd e ∧ n.Path n.start w e

theorem lt_of_mem_edgesOf {n : Nfa} {s : StateId} {e : Edge} (h : e ∈ n.edgesOf s) :
    s < n.edges.size := by
  by_contra outside
  simp [edgesOf, Array.getD_eq_getD_getElem?, Array.getElem?_eq_none (not_lt.1 outside)] at h

/-- A word that leads to a state of the automaton leads there from a state of it. -/
theorem Path.start_lt {n : Nfa} {s t : StateId} {w : List Letter} (h : n.Path s w t)
    (ht : t < n.edges.size) : s < n.edges.size := by
  cases h with
  | nil => exact ht
  | edge he _ _ => exact lt_of_mem_edgesOf he

/-! ## Closures -/

/-- A set of states that silent edges do not leave, other than to where there is no state. -/
structure SilentClosed (n : Nfa) (set : List StateId) : Prop where
  lt : ∀ s ∈ set, s < n.edges.size
  step : ∀ s ∈ set, ∀ t, Edge.silent t ∈ n.edgesOf s → t < n.edges.size → t ∈ set

/-- A set is closed, and a word leads to its states from some of the seeds. -/
structure ClosureOf (n : Nfa) (seeds set : List StateId) : Prop where
  seed : ∀ s ∈ seeds, s < n.edges.size → s ∈ set
  closed : n.SilentClosed set
  path : ∀ s ∈ set, ∃ seed ∈ seeds, n.Path seed [] s

theorem closureOf_closure (n : Nfa) (seeds : List StateId) : n.ClosureOf seeds (n.closure seeds) where
  seed s hs hlt := Reach.mem_reach_of_seed hs hlt
  closed :=
    ⟨fun s hs => Reach.lt_of_mem_reach hs, fun s hs t ht hlt =>
      Reach.mem_reach_of_step hs (List.mem_filterMap.2 ⟨_, ht, rfl⟩) hlt⟩
  path := by
    refine Reach.reach_induction (fun s hs _ => ⟨s, hs, .nil s⟩) ?_
    rintro s ⟨seed, hseed, hpath⟩ t ht -
    obtain ⟨e, he, het⟩ := List.mem_filterMap.1 ht
    cases e with
    | silent u =>
      obtain rfl : u = t := Option.some.inj het
      exact ⟨seed, hseed, hpath.trans (.single (e := .silent u) he rfl)⟩
    | byte _ _ _ => simp [Edge.silent?] at het
    | call _ _ => simp [Edge.silent?] at het

/-! ## Sets of states -/

/-- What can be read from some state of a set to an end. -/
def words (n : Nfa) (set : List StateId) : Language Letter :=
  {w | ∃ s ∈ set, ∃ e, n.IsEnd e ∧ n.Path s w e}

/-- An empty word leads out of a closed set only by ending in it. -/
theorem mem_of_path_nil {n : Nfa} {set : List StateId} (h : n.SilentClosed set) {s e : StateId}
    (hs : s ∈ set) (hlt : e < n.edges.size) (hp : n.Path s [] e) : e ∈ set := by
  generalize hw : ([] : List Letter) = w at hp
  induction hp with
  | nil s => exact hs
  | @edge s u e v w he hv rest ih =>
    obtain ⟨rfl, rfl⟩ := List.append_eq_nil_iff.1 hw.symm
    cases e with
    | silent t => exact ih (h.step s hs t he (rest.start_lt hlt)) hlt rfl
    | byte lo hi t =>
      obtain ⟨_, ⟨b, -, -, rfl⟩, h⟩ := mem_ofBytes.1 hv
      simp at h
    | call r t => cases hv

/-- The first letter of a word is read by an edge that leaves a closed set. -/
theorem exists_edge_of_path_cons {n : Nfa} {set : List StateId} (h : n.SilentClosed set)
    {s e : StateId} {a : Letter} {w : List Letter} (hs : s ∈ set) (hlt : e < n.edges.size)
    (hp : n.Path s (a :: w) e) :
    ∃ s' ∈ set, ∃ edge ∈ n.edgesOf s', [a] ∈ edge.words ∧ n.Path edge.target w e := by
  generalize hw : a :: w = v at hp
  induction hp with
  | nil s => simp at hw
  | @edge s u e v' w' he hv rest ih =>
    cases e with
    | silent t =>
      obtain rfl : v' = [] := hv
      exact ih (h.step s hs t he (rest.start_lt hlt)) hlt hw
    | byte lo hi t =>
      obtain ⟨_, ⟨b, hl, hh, rfl⟩, rfl⟩ := mem_ofBytes.1 hv
      obtain ⟨rfl, rfl⟩ := List.cons.inj hw
      exact ⟨s, hs, _, he, hv, rest⟩
    | call r t =>
      obtain rfl : v' = [.call r] := hv
      obtain ⟨rfl, rfl⟩ := List.cons.inj hw
      exact ⟨s, hs, _, he, rfl, rest⟩

/-- The states that a letter leads to from the states of a set. -/
def LeadsTo (n : Nfa) (set : List StateId) (a : Letter) (t : Nat) : Prop :=
  ∃ s ∈ set, ∃ edge ∈ n.edgesOf s, [a] ∈ edge.words ∧ edge.target = t

theorem nil_mem_words {n : Nfa} {set : List StateId} (h : n.SilentClosed set) :
    [] ∈ n.words set ↔ ∃ e ∈ n.ends, e ∈ set := by
  constructor
  · rintro ⟨s, hs, e, ⟨he, hlt⟩, hp⟩
    exact ⟨e, he, mem_of_path_nil h hs hlt hp⟩
  · rintro ⟨e, he, hs⟩
    exact ⟨e, hs, e, ⟨he, h.lt e hs⟩, .nil e⟩

/-- After a letter, what can be read is what can be read from the closure of where it leads. -/
theorem cons_mem_words {n : Nfa} {set targets next : List StateId} {a : Letter} (h : n.SilentClosed set)
    (htargets : ∀ t, t ∈ targets ↔ n.LeadsTo set a t) (hnext : n.ClosureOf targets next)
    (w : List Letter) : a :: w ∈ n.words set ↔ w ∈ n.words next := by
  constructor
  · rintro ⟨s, hs, e, he, hp⟩
    obtain ⟨s', hs', edge, hedge, ha, hp⟩ := exists_edge_of_path_cons h hs he.2 hp
    have := (htargets edge.target).2 ⟨s', hs', edge, hedge, ha, rfl⟩
    exact ⟨edge.target, hnext.seed _ this (hp.start_lt he.2), e, he, hp⟩
  · rintro ⟨s, hs, e, he, hp⟩
    obtain ⟨t, ht, hseed⟩ := hnext.path s hs
    obtain ⟨s', hs', edge, hedge, ha, rfl⟩ := (htargets t).1 ht
    exact ⟨s', hs', e, he, .edge (v := [a]) hedge ha (hseed.trans hp)⟩

theorem words_eq_zero_of_not_leadsTo {n : Nfa} {set : List StateId} {a : Letter}
    (h : n.SilentClosed set) (ha : ∀ t, ¬ n.LeadsTo set a t) (w : List Letter) :
    a :: w ∉ n.words set := by
  rintro ⟨s, hs, e, he, hp⟩
  obtain ⟨s', hs', edge, hedge, hmem, -⟩ := exists_edge_of_path_cons h hs he.2 hp
  exact ha _ ⟨s', hs', edge, hedge, hmem, rfl⟩

/-- From the closure of the start the words can be read that the automaton accepts. -/
theorem mem_words_closure_start {n : Nfa} {w : List Letter} :
    w ∈ n.words (n.closure [n.start]) ↔ n.Accepts w := by
  have closure := closureOf_closure n [n.start]
  constructor
  · rintro ⟨s, hs, e, he, hp⟩
    obtain ⟨seed, hseed, hpath⟩ := closure.path s hs
    obtain rfl := List.mem_singleton.1 hseed
    exact ⟨e, he, hpath.trans hp⟩
  · rintro ⟨e, he, hp⟩
    exact ⟨n.start, closure.seed _ List.mem_cons_self (hp.start_lt he.2), e, he, hp⟩

/-! ## Numbers of sets -/

namespace Subsets

/-- Sets keep their numbers. -/
def Extends (s s' : Subsets) : Prop :=
  ∀ (i : Nat) (set : List StateId), s.sets[i]? = some set → s'.sets[i]? = some set

/-- Each set has the number that it is found under, all sets are closed, and there are few enough. -/
structure Sound (n : Nfa) (s : Subsets) : Prop where
  number : ∀ (set : List StateId) (i : Nat), s.numbers[set]? = some i → s.sets[i]? = some set
  closed : ∀ (i : Nat) (set : List StateId), s.sets[i]? = some set → n.SilentClosed set
  size_lt : s.sets.size < stateLimit

theorem sound_empty (n : Nfa) : Sound n empty :=
  ⟨by simp [empty], by simp [empty], by decide⟩

theorem number_spec {n : Nfa} {set : List StateId} (hset : n.SilentClosed set) {s s' : Subsets}
    {i : Nat} (hs : Sound n s) (h : number set s = some (i, s')) :
    Sound n s' ∧ Extends s s' ∧ s'.sets[i]? = some set := by
  unfold number at h
  split at h
  · rename_i j hj
    simp only [Option.some.injEq, Prod.mk.injEq] at h
    obtain ⟨rfl, rfl⟩ := h
    exact ⟨hs, fun _ _ h => h, hs.number set _ hj⟩
  · split at h
    · simp at h
    · rename_i hroom
      simp only [Option.some.injEq, Prod.mk.injEq] at h
      obtain ⟨rfl, rfl⟩ := h
      have old (i : Nat) (set' : List StateId) (h : s.sets[i]? = some set') :
          (s.sets.push set)[i]? = some set' := by
        obtain ⟨hi, rfl⟩ := Array.getElem?_eq_some_iff.1 h
        simp [Array.getElem?_push, hi, hi.ne]
      refine ⟨⟨fun set' i hi => ?_, fun i set' hi => ?_, ?_⟩, old, by simp⟩
      · rw [Std.TreeMap.getElem?_insert] at hi
        split at hi
        · rename_i heq
          obtain rfl : set = set' := by simpa using heq
          obtain rfl := Option.some.inj hi
          simp
        · exact old i set' (hs.number set' i hi)
      · rw [Array.getElem?_push] at hi
        split at hi
        · obtain rfl := Option.some.inj hi
          exact hset
        · exact hs.closed i set' hi
      · simp only [Array.size_push]
        omega

/-- The only set that can get a number is the one that is asked for. -/
theorem lt_or_eq_of_number {set : List StateId} {s s' : Subsets} {i : Nat}
    (h : number set s = some (i, s')) (j : Nat) (hj : j < s'.sets.size) : j < s.sets.size ∨ i = j := by
  unfold number at h
  split at h
  · simp only [Option.some.injEq, Prod.mk.injEq] at h
    obtain ⟨rfl, rfl⟩ := h
    exact Or.inl hj
  · split at h
    · simp at h
    · simp only [Option.some.injEq, Prod.mk.injEq] at h
      obtain ⟨rfl, rfl⟩ := h
      rw [Array.size_push] at hj
      omega

end Subsets

/-! ## States of sets -/

/-- Some byte or some call leads from a deterministic state to the state with a number. -/
def LeadsOn (st : Dfa.State) (j : Nat) : Prop :=
  (∃ lo hi, (lo, hi, j) ∈ st.bytes) ∨ ∃ r, (r, j) ∈ st.calls

/-- A deterministic state stands for a set: each byte and each call lead to the state of the closure
of where they lead from the set. The ranges of bytes and the rules are in order. -/
structure Stands (n : Nfa) (sets : Array (List StateId)) (set : List StateId) (st : Dfa.State) :
    Prop where
  accepts : st.accepts = true ↔ ∃ e ∈ n.ends, e ∈ set
  byte : ∀ lo hi j, (lo, hi, j) ∈ st.bytes → ∀ b : UInt8, lo ≤ b.toNat → b.toNat ≤ hi →
    ∃ targets, (∀ t, t ∈ targets ↔ n.LeadsTo set (.byte b) t) ∧
      sets[j]? = some (n.closure targets)
  byte_covers : ∀ (b : UInt8) t, n.LeadsTo set (.byte b) t →
    ∃ lo hi j, (lo, hi, j) ∈ st.bytes ∧ lo ≤ b.toNat ∧ b.toNat ≤ hi
  byte_leads : st.bytes ≠ [] → ∃ (b : UInt8) (t : StateId), n.LeadsTo set (.byte b) t
  call : ∀ r j, (r, j) ∈ st.calls → (∃ t, n.LeadsTo set (.call r) t) ∧
    ∃ targets, (∀ t, t ∈ targets ↔ n.LeadsTo set (.call r) t) ∧ sets[j]? = some (n.closure targets)
  call_covers : ∀ r t, n.LeadsTo set (.call r) t → ∃ j, (r, j) ∈ st.calls
  byte_range : ∀ e ∈ st.bytes, e.1 ≤ e.2.1 ∧ e.2.1 < 256
  byte_order : st.bytes.Pairwise fun e e' => e.2.1 < e'.1
  call_order : (st.calls.map Prod.fst).Pairwise (· < ·)

theorem Stands.of_extends {n : Nfa} {s s' : Subsets} {set : List StateId} {st : Dfa.State}
    (h : n.Stands s.sets set st) (hs : s.Extends s') : n.Stands s'.sets set st where
  accepts := h.accepts
  byte lo hi j hj b hl hh := by
    obtain ⟨targets, ht, hset⟩ := h.byte lo hi j hj b hl hh
    exact ⟨targets, ht, hs _ _ hset⟩
  byte_covers := h.byte_covers
  byte_leads := h.byte_leads
  call r j hj := by
    obtain ⟨hsome, targets, ht, hset⟩ := h.call r j hj
    exact ⟨hsome, targets, ht, hs _ _ hset⟩
  call_covers := h.call_covers
  byte_range := h.byte_range
  byte_order := h.byte_order
  call_order := h.call_order

private theorem readsAt_iff {n : Nfa} {set : List StateId} {b : UInt8} {t : Nat} :
    ReadsAt ((set.flatMap n.edgesOf).filterMap Edge.byte?) b.toNat t ↔
      n.LeadsTo set (.byte b) t := by
  constructor
  · rintro ⟨lo, hi, he, hl, hh⟩
    obtain ⟨edge, hedge, heq⟩ := List.mem_filterMap.1 he
    obtain ⟨s, hs, hedge⟩ := List.mem_flatMap.1 hedge
    cases edge with
    | byte lo' hi' t' =>
      simp only [Edge.byte?, Option.some.injEq, Prod.mk.injEq] at heq
      obtain ⟨rfl, rfl, rfl⟩ := heq
      exact ⟨s, hs, _, hedge, ⟨[b], ⟨b, hl, hh, rfl⟩, rfl⟩, rfl⟩
    | silent t' => simp [Edge.byte?] at heq
    | call r t' => simp [Edge.byte?] at heq
  · rintro ⟨s, hs, edge, hedge, ha, rfl⟩
    cases edge with
    | byte lo hi t =>
      obtain ⟨_, ⟨b', hl, hh, rfl⟩, hb⟩ := mem_ofBytes.1 ha
      obtain rfl : b' = b := by simpa using hb
      exact ⟨lo, hi, List.mem_filterMap.2 ⟨_, List.mem_flatMap.2 ⟨s, hs, hedge⟩, rfl⟩, hl, hh⟩
    | silent t => cases ha
    | call r t => cases ha

private theorem mem_calls_iff {n : Nfa} {set : List StateId} {r : RuleId} {t : Nat} :
    (r, t) ∈ (set.flatMap n.edgesOf).filterMap Edge.call? ↔ n.LeadsTo set (.call r) t := by
  constructor
  · intro he
    obtain ⟨edge, hedge, heq⟩ := List.mem_filterMap.1 he
    obtain ⟨s, hs, hedge⟩ := List.mem_flatMap.1 hedge
    cases edge with
    | call r' t' =>
      simp only [Edge.call?, Option.some.injEq, Prod.mk.injEq] at heq
      obtain ⟨rfl, rfl⟩ := heq
      exact ⟨s, hs, _, hedge, rfl, rfl⟩
    | silent t' => simp [Edge.call?] at heq
    | byte lo hi t' => simp [Edge.call?] at heq
  · rintro ⟨s, hs, edge, hedge, ha, rfl⟩
    cases edge with
    | call r' t =>
      cases ha
      exact List.mem_filterMap.2 ⟨_, List.mem_flatMap.2 ⟨s, hs, hedge⟩, rfl⟩
    | silent t => cases ha
    | byte lo hi t =>
      obtain ⟨_, ⟨b', -, -, rfl⟩, hb⟩ := mem_ofBytes.1 ha
      simp at hb

private theorem mem_targetsOf_iff {n : Nfa} {set : List StateId} {r : RuleId} {t : Nat} :
    t ∈ targetsOf ((set.flatMap n.edgesOf).filterMap Edge.call?) r ↔ n.LeadsTo set (.call r) t := by
  rw [← mem_calls_iff, targetsOf]
  simp only [List.mem_filterMap, Option.ite_none_right_eq_some, Option.some.injEq]
  constructor
  · rintro ⟨⟨r', t'⟩, hmem, rfl, rfl⟩
    exact hmem
  · intro hmem
    exact ⟨(r, t), hmem, rfl, rfl⟩

/-- A range of bytes with a number has the bounds of a piece, and the number is that of the set that the
piece leads to. -/
def PieceNumbered (n : Nfa) (sets : Array (List StateId)) (p : Piece) (e : Nat × Nat × StateId) : Prop :=
  e.1 = p.lo ∧ e.2.1 = p.hi ∧ sets[e.2.2]? = some (n.closure p.targets)

/-- A call with a number is that of a rule, and the number is that of the set that the rule leads to. -/
def RuleNumbered (n : Nfa) (sets : Array (List StateId)) (calls : List (RuleId × StateId))
    (r : RuleId) (c : RuleId × StateId) : Prop :=
  c.1 = r ∧ sets[c.2]? = some (n.closure (targetsOf calls r))

/-- A state of the numbered pieces and the numbered calls of a set stands for the set. -/
theorem stands_of_numbered {n : Nfa} {sets : Array (List StateId)} {set : List StateId}
    {bytes : List (Nat × Nat × StateId)} {calls : List (RuleId × StateId)}
    (hbytes : List.Forall₂ (PieceNumbered n sets)
      (pieces ((set.flatMap n.edgesOf).filterMap Edge.byte?)) bytes)
    (hcalls : List.Forall₂ (RuleNumbered n sets ((set.flatMap n.edgesOf).filterMap Edge.call?))
      (ascending (((set.flatMap n.edgesOf).filterMap Edge.call?).map (·.1))) calls) :
    n.Stands sets set ⟨bytes, calls, set.any n.ends.contains⟩ := by
  have splits := splits_pieces ((set.flatMap n.edgesOf).filterMap Edge.byte?)
  have reads (p : Piece) (hp : p ∈ pieces ((set.flatMap n.edgesOf).filterMap Edge.byte?)) (x : Nat)
      (hx : p.Holds x) : ∃ t, ReadsAt ((set.flatMap n.edgesOf).filterMap Edge.byte?) x t := by
    obtain ⟨t, ht⟩ := List.exists_mem_of_ne_nil _ (splits.nonempty p hp)
    exact ⟨t, (splits.targets p hp x hx t).1 ht⟩
  have lt_of_reads {x t : Nat}
      (h : ReadsAt ((set.flatMap n.edgesOf).filterMap Edge.byte?) x t) : x < 256 := by
    obtain ⟨-, hi, -, -, hle⟩ := h
    exact hle.trans_lt hi.toNat_lt
  constructor
  case accepts => simp only [List.any_eq_true, List.contains_iff_mem, and_comm]
  case byte =>
    intro lo hi j hj b hl hh
    obtain ⟨p, hp, rfl, rfl, hset⟩ := (exists_of_forall₂ hbytes).2 _ hj
    refine ⟨p.targets, fun t => ?_, hset⟩
    rw [splits.targets p hp b.toNat ⟨hl, hh⟩, readsAt_iff]
  case byte_covers =>
    intro b t ht
    obtain ⟨p, hp, hholds⟩ := splits.covers b.toNat t trivial (readsAt_iff.2 ht)
    obtain ⟨⟨lo, hi, j⟩, hj, rfl, rfl, -⟩ := (exists_of_forall₂ hbytes).1 p hp
    exact ⟨_, _, j, hj, hholds⟩
  case byte_leads =>
    intro hne
    obtain ⟨e, he⟩ := List.exists_mem_of_ne_nil _ hne
    obtain ⟨p, hp, -⟩ := (exists_of_forall₂ hbytes).2 e he
    obtain ⟨t, ht⟩ := reads p hp p.lo ⟨le_rfl, splits.le p hp⟩
    have value : (UInt8.ofNat p.lo).toNat = p.lo := UInt8.toNat_ofNat_of_lt' (lt_of_reads ht)
    exact ⟨UInt8.ofNat p.lo, t, readsAt_iff.1 (value.symm ▸ ht)⟩
  case call =>
    intro r j hj
    obtain ⟨r', hr', rfl, hset⟩ := (exists_of_forall₂ hcalls).2 _ hj
    obtain ⟨⟨r', t⟩, hmem, rfl⟩ := List.mem_map.1 (mem_ascending.1 hr')
    exact ⟨⟨t, mem_calls_iff.1 hmem⟩, _, fun _ => mem_targetsOf_iff, hset⟩
  case call_covers =>
    intro r t ht
    obtain ⟨⟨r', j⟩, hj, rfl, -⟩ := (exists_of_forall₂ hcalls).1 r
      (mem_ascending.2 (List.mem_map_of_mem (mem_calls_iff.2 ht)))
    exact ⟨j, hj⟩
  case byte_range =>
    intro e he
    obtain ⟨p, hp, hlo, hhi, -⟩ := (exists_of_forall₂ hbytes).2 e he
    obtain ⟨t, ht⟩ := reads p hp p.hi ⟨splits.le p hp, le_rfl⟩
    exact hlo ▸ hhi ▸ ⟨splits.le p hp, lt_of_reads ht⟩
  case byte_order =>
    have ranges : bytes.map (fun e => (e.1, e.2.1)) =
        (pieces ((set.flatMap n.edgesOf).filterMap Edge.byte?)).map fun p => (p.lo, p.hi) :=
      map_eq_of_forall₂ (hbytes.imp fun p e h => Prod.ext h.1 h.2.1)
    have order : (bytes.map fun e => (e.1, e.2.1)).Pairwise fun e e' => e.2 < e'.1 :=
      ranges ▸ List.pairwise_map.2 (pieces_pairwise _)
    exact List.pairwise_map.1 order
  case call_order =>
    have rules : calls.map Prod.fst =
        ascending (((set.flatMap n.edgesOf).filterMap Edge.call?).map (·.1)) := by
      simpa using map_eq_of_forall₂ (f := id) (g := Prod.fst) (hcalls.imp fun r c h => h.1)
    exact rules ▸ ascending_pairwise _

theorem subsetState_spec {n : Nfa} {set : List StateId} {s s' : Subsets} {st : Dfa.State}
    (hs : s.Sound n)
    (h : n.subsetState set s = some (st, s')) :
    s'.Sound n ∧ s.Extends s' ∧ n.Stands s'.sets set st := by
  simp only [subsetState] at h
  obtain ⟨bytes, s₁, hbytes, h⟩ := StateT.bind_eq_some.1 h
  obtain ⟨calls, s₂, hcalls, h⟩ := StateT.bind_eq_some.1 h
  obtain ⟨rfl, rfl⟩ := Prod.mk.inj (StateT.pure_eq_some.1 h)
  have trans (a b c : Subsets) (hab : a.Extends b) (hbc : b.Extends c) : a.Extends c :=
    fun i set h => hbc i set (hab i set h)
  -- what follows the numbering of a closure keeps the closure's number
  have number {targets : List StateId} {β : Type} (f : StateId → β) (s : Subsets) (b : β)
      (s' : Subsets) (hs : s.Sound n)
      (h : (do return f (← Subsets.number (n.closure targets))) s = some (b, s')) :
      s'.Sound n ∧ s.Extends s' ∧ ∃ i, b = f i ∧ s'.sets[i]? = some (n.closure targets) := by
    obtain ⟨i, s₁, hi, h⟩ := StateT.bind_eq_some.1 h
    obtain ⟨rfl, rfl⟩ := Prod.mk.inj (StateT.pure_eq_some.1 h)
    obtain ⟨hs₁, he, hset⟩ := Subsets.number_spec (closureOf_closure n targets).closed hs hi
    exact ⟨hs₁, he, i, rfl, hset⟩
  obtain ⟨hs₁, he₁, hq₁⟩ := StateT.forall₂_of_mapM (R := Subsets.Extends) (I := Subsets.Sound n)
    (Q := fun p e s => PieceNumbered n s.sets p e) (fun _ _ _ h => h) trans
    (fun p e s s' h hss => ⟨h.1, h.2.1, hss _ _ h.2.2⟩)
    (fun p s e s' hs h => by
      obtain ⟨hs', he, i, rfl, hset⟩ := number _ s e s' hs h
      exact ⟨hs', he, rfl, rfl, hset⟩) _ _ _ _ hs hbytes
  obtain ⟨hs₂, he₂, hq₂⟩ := StateT.forall₂_of_mapM (R := Subsets.Extends) (I := Subsets.Sound n)
    (Q := fun r c s => RuleNumbered n s.sets ((set.flatMap n.edgesOf).filterMap Edge.call?) r c)
    (fun _ _ _ h => h) trans (fun r c s s' h hss => ⟨h.1, hss _ _ h.2⟩)
    (fun r s c s' hs h => by
      obtain ⟨hs', he, i, rfl, hset⟩ := number _ s c s' hs h
      exact ⟨hs', he, rfl, hset⟩) _ _ _ _ hs₁ hcalls
  exact ⟨hs₂, trans _ _ _ he₁ he₂, stands_of_numbered
    (hq₁.imp fun p e h => ⟨h.1, h.2.1, he₂ _ _ h.2.2⟩) hq₂⟩

/-- The sets that get a number on the way are those that the state leads on to. -/
theorem lt_or_leadsOn_of_subsetState {n : Nfa} {set : List StateId} {s s' : Subsets} {st : Dfa.State}
    (h : n.subsetState set s = some (st, s')) (j : Nat) (hj : j < s'.sets.size) :
    j < s.sets.size ∨ LeadsOn st j := by
  simp only [subsetState] at h
  obtain ⟨bytes, s₁, hbytes, h⟩ := StateT.bind_eq_some.1 h
  obtain ⟨calls, s₂, hcalls, h⟩ := StateT.bind_eq_some.1 h
  obtain ⟨rfl, rfl⟩ := Prod.mk.inj (StateT.pure_eq_some.1 h)
  have number (set : List StateId) {β : Type} (f : StateId → β) (s : Subsets) (b : β) (s' : Subsets)
      (h : (do return f (← Subsets.number set)) s = some (b, s')) (j : Nat) (hj : j < s'.sets.size) :
      j < s.sets.size ∨ b = f j := by
    obtain ⟨i, s₁, hi, h⟩ := StateT.bind_eq_some.1 h
    obtain ⟨rfl, rfl⟩ := Prod.mk.inj (StateT.pure_eq_some.1 h)
    exact (Subsets.lt_or_eq_of_number hi j hj).imp_right (congrArg f)
  have byte := StateT.exists_of_mapM (I := fun j (s : Subsets) => j < s.sets.size)
    (Q := fun (e : Nat × Nat × StateId) j => e = (e.1, e.2.1, j))
    (fun (p : Piece) s e s' h j hj => (number _ _ s e s' h j hj).imp_right fun h => by rw [h])
    _ _ _ _ hbytes j
  have call := StateT.exists_of_mapM (I := fun j (s : Subsets) => j < s.sets.size)
    (Q := fun (c : RuleId × StateId) j => c = (c.1, j))
    (fun (r : RuleId) s c s' h j hj => (number _ _ s c s' h j hj).imp_right fun h => by rw [h])
    _ _ _ _ hcalls j
  rcases call hj with hj | ⟨c, hc, heq⟩
  · rcases byte hj with hj | ⟨e, he, heq⟩
    · exact Or.inl hj
    · exact Or.inr (Or.inl ⟨e.1, e.2.1, heq ▸ he⟩)
  · exact Or.inr (Or.inr ⟨c.1, heq ▸ hc⟩)

/-- The states from number `i` on stand for their sets if those before it do. -/
theorem subsetStates_spec {n : Nfa} (fuel : Nat) :
    ∀ (i : Nat) (states states' : Array Dfa.State) (s s' : Subsets), s.Sound n → states.size = i →
      i ≤ s.sets.size → i + fuel = stateLimit →
      (∀ (j : Nat) (st : Dfa.State), states[j]? = some st →
        ∃ set, s.sets[j]? = some set ∧ n.Stands s.sets set st) →
      n.subsetStates fuel i states s = some (states', s') →
      s'.Sound n ∧ s.Extends s' ∧ states'.size = s'.sets.size ∧
        ∀ (j : Nat) (st : Dfa.State), states'[j]? = some st →
          ∃ set, s'.sets[j]? = some set ∧ n.Stands s'.sets set st := by
  induction fuel with
  | zero =>
    intro i states states' s s' hs _ hi hfuel
    have := hs.size_lt
    omega
  | succ fuel ih =>
    intro i states states' s s' hs hsize hi hfuel hstates h
    rw [subsetStates] at h
    obtain ⟨s₀, _, hget, h⟩ := StateT.bind_eq_some.1 h
    obtain ⟨rfl, rfl⟩ : s = s₀ ∧ s = _ := by
      change some (s, s) = _ at hget
      simpa using hget
    cases hset : s.sets[i]? with
    | none =>
      simp only [hset] at h
      obtain ⟨rfl, rfl⟩ := Prod.mk.inj (StateT.pure_eq_some.1 h)
      have : s.sets.size ≤ i := by simpa using hset
      exact ⟨hs, fun _ _ h => h, by omega, hstates⟩
    | some set =>
      simp only [hset] at h
      obtain ⟨st, s₁, hst, h⟩ := StateT.bind_eq_some.1 h
      obtain ⟨hs₁, he₁, hstands⟩ := subsetState_spec hs hst
      have hi₁ : i + 1 ≤ s₁.sets.size := (Array.getElem?_eq_some_iff.1 (he₁ _ _ hset)).1
      obtain ⟨hs', he', hsize', hstates'⟩ := ih (i + 1) _ _ s₁ s' hs₁ (by simp [hsize]) hi₁
        (by omega) (by
          intro j st' hj
          rw [Array.getElem?_push] at hj
          split at hj
          · rename_i heq
            obtain rfl := Option.some.inj hj
            exact ⟨set, by rw [heq, hsize]; exact he₁ _ _ hset, hstands⟩
          · obtain ⟨set', hset', hst'⟩ := hstates j st' hj
            exact ⟨set', he₁ _ _ hset', hst'.of_extends he₁⟩) h
      exact ⟨hs', fun j set h => he' _ _ (he₁ _ _ h), hsize', hstates'⟩

/-- The states from number `i` on come after those before it, and each set that gets a number on the way
is one that a state before it leads on to. -/
theorem exists_leadsOn_of_subsetStates {n : Nfa} (fuel : Nat) :
    ∀ (i : Nat) (states states' : Array Dfa.State) (s s' : Subsets), states.size = i →
      n.subsetStates fuel i states s = some (states', s') →
      (∀ (k : Nat) (st : Dfa.State), states[k]? = some st → states'[k]? = some st) ∧
        ∀ j < s'.sets.size, j < s.sets.size ∨ ∃ k < j, ∃ st, states'[k]? = some st ∧ LeadsOn st j := by
  induction fuel with
  | zero =>
    intro i states states' s s' _ h
    obtain ⟨rfl, rfl⟩ := Prod.mk.inj (StateT.pure_eq_some.1 h)
    exact ⟨fun _ _ h => h, fun j hj => Or.inl hj⟩
  | succ fuel ih =>
    intro i states states' s s' hsize h
    rw [subsetStates] at h
    obtain ⟨s₀, _, hget, h⟩ := StateT.bind_eq_some.1 h
    obtain ⟨rfl, rfl⟩ : s = s₀ ∧ s = _ := by
      change some (s, s) = _ at hget
      simpa using hget
    cases hset : s.sets[i]? with
    | none =>
      simp only [hset] at h
      obtain ⟨rfl, rfl⟩ := Prod.mk.inj (StateT.pure_eq_some.1 h)
      exact ⟨fun _ _ h => h, fun j hj => Or.inl hj⟩
    | some set =>
      simp only [hset] at h
      obtain ⟨st, s₁, hst, h⟩ := StateT.bind_eq_some.1 h
      obtain ⟨kept, found⟩ := ih (i + 1) _ _ s₁ s' (by simp [hsize]) h
      have hi : i < s.sets.size := (Array.getElem?_eq_some_iff.1 hset).1
      refine ⟨fun k st' hk => kept k st' ?_, fun j hj => ?_⟩
      · have := (Array.getElem?_eq_some_iff.1 hk).1
        rw [Array.getElem?_push, if_neg (by omega), hk]
      · rcases found j hj with hj | later
        · rcases lt_or_leadsOn_of_subsetState hst j hj with hj | leads
          · exact Or.inl hj
          · by_cases hold : j < s.sets.size
            · exact Or.inl hold
            · exact Or.inr ⟨i, by omega, st, kept i st (by simp [← hsize]), leads⟩
        · exact Or.inr later

/-- A deterministic automaton whose states stand for sets of states of another one. Each state but the
first is one that a state before it leads on to. -/
structure Determines (n : Nfa) (sets : Array (List StateId)) (d : Dfa) : Prop where
  size : d.states.size = sets.size
  size_lt : sets.size < stateLimit
  start : sets[0]? = some (n.closure [n.start])
  closed : ∀ (i : Nat) (set : List StateId), sets[i]? = some set → n.SilentClosed set
  stands : ∀ (i : Nat) (st : Dfa.State), d.states[i]? = some st →
    ∃ set, sets[i]? = some set ∧ n.Stands sets set st
  found : ∀ j < sets.size, j = 0 ∨ ∃ k < j, ∃ st, d.states[k]? = some st ∧ LeadsOn st j

theorem toDfa?_spec {n : Nfa} {d : Dfa} (h : n.toDfa? = some d) : ∃ sets, n.Determines sets d := by
  simp only [toDfa?, Option.map_eq_some_iff] at h
  obtain ⟨⟨states, s'⟩, h, rfl⟩ := h
  obtain ⟨i, s₁, hnumber, h⟩ := StateT.bind_eq_some.1 h
  have hstart := (closureOf_closure n [n.start]).closed
  obtain ⟨hs₁, -, hset⟩ := Subsets.number_spec hstart (Subsets.sound_empty n) hnumber
  have only (j : Nat) (hj : j < s₁.sets.size) : i = j :=
    (Subsets.lt_or_eq_of_number hnumber j hj).resolve_left (Nat.not_lt_zero j)
  have hlt : i < s₁.sets.size := (Array.getElem?_eq_some_iff.1 hset).1
  obtain rfl : i = 0 := only 0 (Nat.zero_lt_of_lt hlt)
  obtain ⟨hs', he', hsize, hstates⟩ := subsetStates_spec stateLimit 0 #[] states s₁ s' hs₁ rfl
    (Nat.zero_le _) (by omega) (by simp) h
  obtain ⟨-, found⟩ := exists_leadsOn_of_subsetStates stateLimit 0 #[] states s₁ s' rfl h
  refine ⟨s'.sets, hsize, hs'.size_lt, he' _ _ hset, hs'.closed, hstates, fun j hj => ?_⟩
  exact (found j hj).imp_left fun hj => (only j hj).symm

end Nfa

end ConstrainedDecoding
