import ConstrainedDecoding.Proofs.Containment
import ConstrainedDecoding.Proofs.ValidStarts

/-!
# Runs of forced bytes

Where the text may not end and the current states read one byte only, every text that can still be
finished goes on with this byte. So the texts that can be finished all start with the run of forced
bytes, whether a matcher stands at a state of a table or follows a stack. The forced text is the
longest text that this run starts with.
-/
namespace ConstrainedDecoding

namespace Table

variable {t : Table} {s : StateId} {b : UInt8}

/-- The bytes that a state reads, in ascending order. -/
def bytesAt (t : Table) (s : StateId) : List UInt8 :=
  (List.range 256).filterMap fun n =>
    if (t.next? s (UInt8.ofNat n)).isSome then some (UInt8.ofNat n) else none

theorem mem_bytesAt : b ∈ t.bytesAt s ↔ (t.next? s b).isSome = true := by
  simp only [bytesAt, List.mem_filterMap, List.mem_range, Option.ite_none_right_eq_some, Option.some.injEq]
  constructor
  · rintro ⟨n, -, h, rfl⟩
    exact h
  · intro h
    exact ⟨b.toNat, b.toNat_lt, by rwa [UInt8.ofNat_toNat], UInt8.ofNat_toNat⟩

theorem nodup_bytesAt (t : Table) (s : StateId) : (t.bytesAt s).Nodup := by
  rw [bytesAt, List.Nodup, List.pairwise_filterMap]
  apply List.Pairwise.imp_of_mem ?_ List.nodup_range
  intro n n' hn hn' hne b hb b' hb' heq
  simp only [Option.ite_none_right_eq_some, Option.some.injEq] at hb hb'
  have same := congrArg UInt8.toNat (hb.2.trans (heq.trans hb'.2.symm))
  rw [UInt8.toNat_ofNat', UInt8.toNat_ofNat'] at same
  rw [List.mem_range] at hn hn'
  omega

/-- A state reads only one byte if this byte leads somewhere, and no other one does. -/
theorem onlyByte?_eq_some :
    t.onlyByte? s = some b ↔ ∀ b', (t.next? s b').isSome = true ↔ b' = b := by
  have single : t.onlyByte? s = some b ↔ t.bytesAt s = [b] := by
    rw [onlyByte?, ← bytesAt]
    split <;> simp_all
  rw [single]
  constructor
  · intro h b'
    rw [← mem_bytesAt, h, List.mem_singleton]
  · intro h
    apply List.perm_singleton.1
    apply (List.perm_ext_iff_of_nodup (nodup_bytesAt t s) (List.nodup_singleton b)).2
    intro b'
    rw [mem_bytesAt, h, List.mem_singleton]

end Table

namespace Stack

open Work

variable {c : Compiled} {maxDepth : Nat} {b : UInt8}

/-- A state reads a byte. -/
def State.Reads (c : Compiled) (s : State) (b : UInt8) : Prop :=
  ((c.table s.rule).next? s.state b).isSome = true

/-- The common byte of states is the only one that any of them reads. -/
theorem commonByte?_eq_some {states : List State} : commonByte? c states = some b ↔
    states ≠ [] ∧ ∀ s ∈ states, ∀ b', s.Reads c b' ↔ b' = b := by
  induction states with
  | nil => exact iff_of_false nofun fun h => h.1 rfl
  | cons s states ih =>
    cases states with
    | nil =>
      have alone : commonByte? c [s] = (c.table s.rule).onlyByte? s.state := rfl
      rw [alone, Table.onlyByte?_eq_some]
      simp only [ne_eq, List.cons_ne_nil, not_false_eq_true, true_and, List.forall_mem_singleton,
        State.Reads]
    | cons s' states =>
      have both : commonByte? c (s :: s' :: states) = (do
          let b ← (c.table s.rule).onlyByte? s.state
          let b' ← commonByte? c (s' :: states)
          if b = b' then some b else none) := rfl
      have agree : commonByte? c (s :: s' :: states) = some b ↔
          (c.table s.rule).onlyByte? s.state = some b ∧ commonByte? c (s' :: states) = some b := by
        rw [both]
        simp only [Option.bind_eq_bind, Option.bind_eq_some_iff, Option.ite_none_right_eq_some,
          Option.some.injEq]
        grind
      rw [agree, Table.onlyByte?_eq_some, ih]
      simp only [ne_eq, List.cons_ne_nil, not_false_eq_true, true_and, List.forall_mem_cons,
        State.Reads]

/-- Of states that all read something, the common byte is the only one that is read. -/
theorem commonByte?_eq_some_of_scan {states : List State} (scan : ∀ s ∈ states, ∃ b, s.Reads c b) :
    commonByte? c states = some b ↔ ∀ b', (∃ s ∈ states, s.Reads c b') ↔ b' = b := by
  rw [commonByte?_eq_some]
  constructor
  · intro ⟨nonempty, only⟩ b'
    obtain ⟨s, hs⟩ := List.exists_mem_of_ne_nil states nonempty
    constructor
    · intro ⟨s', hs', reads⟩
      exact (only s' hs' b').1 reads
    · intro same
      exact ⟨s, hs, (only s hs b').2 same⟩
  · intro only
    obtain ⟨s, hs, -⟩ := (only b).2 rfl
    refine ⟨List.ne_nil_of_mem hs, ?_⟩
    intro s hs b'
    have eq_of_reads {b' : UInt8} (reads : s.Reads c b') : b' = b := (only b').1 ⟨s, hs, reads⟩
    constructor
    · exact eq_of_reads
    · intro same
      obtain ⟨b'', reads⟩ := scan s hs
      exact same ▸ eq_of_reads reads ▸ reads

/-- A byte can be read only if a current state reads it. -/
theorem exists_reads_of_alive (hc : c.Regular) {w : Bytes} (alive : (workOf c maxDepth (w ++ [b])).Alive) :
    ∃ s ∈ (levels c maxDepth w).current, s.Reads c b := by
  by_contra none
  have unread : ∀ s, ¬ Seeds c maxDepth (w ++ [b]) s := by
    intro s hs
    rw [seeds_append] at hs
    obtain ⟨s, hs, t, ht, -⟩ := hs
    exact none ⟨s, hs, by rw [State.Reads, ht, Option.isSome_some]⟩
  obtain ⟨-, scannable, ends⟩ :=
    Changes.of_stays (fun s hs => absurd hs (unread s)) (workOf_spec hc (w ++ [b])).changes
  cases alive with
  | inl alive =>
    obtain ⟨s, hs⟩ := Array.exists_mem_of_ne_empty _ alive
    exact unread s (scannable s hs)
  | inr alive => exact Bool.false_ne_true (ends.symm.trans alive)

end Stack

namespace Matcher

open Stack (levels)

/-! ## What is forced -/

/-- The states from which a byte can be read. -/
def scanning (m : Matcher) : List Stack.State :=
  let states : List Stack.State := match m.position with
    | .single s _ => [⟨m.compiled.root, s, none, 0⟩]
    | .stacked stack => stack.current.toList
  states.filter fun s => (m.compiled.table s.rule).scansAt s.state

/-- A state from which a byte can be read has a transition for the given byte. -/
def Reads (m : Matcher) (b : UInt8) : Prop := ∃ s ∈ m.scanning, s.Reads m.compiled b

/-- A run of forced bytes leads from a matcher to another: before each byte the text may not end, and
this byte is the only one for which there is a transition. -/
inductive ForcedTo : Matcher → Bytes → Matcher → Prop
  | here (m : Matcher) : ForcedTo m [] m
  | byte {m m₁ m' : Matcher} {b : UInt8} {bs : Bytes} (goesOn : m.mayEnd = false)
    (only : ∀ b', m.Reads b' ↔ b' = b) (read : m.acceptBytes [b] = (true, m₁))
    (rest : ForcedTo m₁ bs m') : ForcedTo m (b :: bs) m'

/-- No byte is forced: the text may end, there is a transition for no byte or for two different ones, or
the only byte for which there is one is refused. -/
def Stops (m : Matcher) : Prop :=
  m.mayEnd = true ∨ (∀ b, ¬ m.Reads b) ∨ (∃ b b', b ≠ b' ∧ m.Reads b ∧ m.Reads b') ∨
    ∃ b, (∀ b', m.Reads b' ↔ b' = b) ∧ (m.acceptBytes [b]).1 = false

/-- A run of forced bytes that goes on up to the greatest length, or until no byte is forced. -/
def IsForcedRun (m : Matcher) (run : Bytes) : Prop :=
  run.length ≤ maxForced ∧ ∃ m', ForcedTo m run m' ∧ (run.length = maxForced ∨ m'.Stops)

/-! ## One byte after the other -/

variable {c : Compiled} {m m' : Matcher} {b : UInt8} {bs w : Bytes}

/-- Matchers that stand at the same place read the same byte strings, and then still do. -/
theorem Agree.advance (h : Agree m m') (bs : Bytes) :
    (m.advance bs).1 = (m'.advance bs).1 ∧ Agree (m.advance bs).2 (m'.advance bs).2 := by
  rcases h.cases with ⟨s, before, before', hm, hm'⟩ | ⟨stack, hm, hm'⟩
  · simp only [Matcher.advance, hm, hm', h.rootTable]
    cases m'.rootTable.run? s bs with
    | none => exact ⟨rfl, h⟩
    | some s' =>
      exact ⟨rfl, h.compiled, h.stopIds, h.endsAlone, h.horizon, h.maxDepth, rfl, h.stopped⟩
  · have same : stack.advance m.compiled m.ceiling bs = stack.advance m'.compiled m'.ceiling bs := by
      rw [h.compiled, h.ceiling]
    simp only [Matcher.advance, hm, hm', same]
    exact ⟨trivial, h.moved _⟩

/-- The first byte of a byte string can be read alone, if it can be read at all. -/
theorem advance_cons (m : Matcher) (b : UInt8) (bs : Bytes) :
    (∃ m₁, m.advance [b] = (true, m₁) ∧ (m.advance (b :: bs)).1 = (m₁.advance bs).1 ∧
      ((m₁.advance bs).1 = true → Agree (m.advance (b :: bs)).2 (m₁.advance bs).2)) ∨
    (m.advance [b]).1 = false ∧ (m.advance (b :: bs)).1 = false := by
  cases hm : m.position with
  | single s before =>
    simp only [Matcher.advance, hm, Table.run?]
    cases m.rootTable.next? s b with
    | none => exact Or.inr ⟨rfl, rfl⟩
    | some s₁ =>
      refine Or.inl ⟨_, rfl, ?_⟩
      simp only [Matcher.rootTable]
      cases (m.compiled.table m.compiled.root).run? s₁ bs with
      | none => exact ⟨rfl, fun read => absurd read Bool.false_ne_true⟩
      | some s' => exact ⟨rfl, fun _ => ⟨rfl, rfl, rfl, rfl, rfl, rfl, rfl⟩⟩
  | stacked stack =>
    simp only [Matcher.advance, hm, Stack.advance, Stack.readWhile]
    cases stack.next? m.compiled m.ceiling b with
    | none => exact Or.inr ⟨rfl, rfl⟩
    | some l =>
      refine Or.inl ⟨_, rfl, ?_⟩
      simp only [Matcher.ceiling]
      rcases Stack.readWhile m.compiled (min m.maxDepth deepest) (Array.push stack l) bs with
        ⟨ahead, read, rest⟩
      cases rest with
      | nil => exact ⟨rfl, fun _ => .refl _⟩
      | cons => exact ⟨rfl, fun read => absurd read Bool.false_ne_true⟩

/-- What a matcher that was not stopped accepts is what it reads. -/
theorem agree_acceptBytes (hopen : m.stopped = false) (bs : Bytes) :
    (m.acceptBytes bs).1 = (m.advance bs).1 ∧ Agree (m.acceptBytes bs).2 (m.advance bs).2 := by
  rw [acceptBytes, if_neg (by simp [hopen]), Matcher.read]
  split
  · rename_i m₁ hread
    rw [hread]
    exact ⟨rfl, agree_record m₁ _⟩
  · rename_i m₁ hread
    rw [hread]
    exact ⟨rfl, .refl m₁⟩

theorem acceptBytes_of_stopped (h : m.stopped = true) (bs : Bytes) : m.acceptBytes bs = (false, m) := if_pos h

@[simp] theorem stopped_advance (m : Matcher) (bs : Bytes) : (m.advance bs).2.stopped = m.stopped := by
  simp only [Matcher.advance]
  split
  · split <;> rfl
  · rfl

theorem stopped_acceptBytes (m : Matcher) (bs : Bytes) : (m.acceptBytes bs).2.stopped = m.stopped := by
  cases h : m.stopped with
  | true => rw [acceptBytes_of_stopped h, h]
  | false => rw [(agree_acceptBytes h bs).2.stopped, stopped_advance, h]

/-- The first byte of a byte string is accepted alone, if the byte string is accepted at all. -/
theorem acceptBytes_cons (m : Matcher) (b : UInt8) (bs : Bytes) :
    (∃ m₁, m.acceptBytes [b] = (true, m₁) ∧ (m.acceptBytes (b :: bs)).1 = (m₁.acceptBytes bs).1 ∧
      ((m₁.acceptBytes bs).1 = true → Agree (m.acceptBytes (b :: bs)).2 (m₁.acceptBytes bs).2)) ∨
    (m.acceptBytes [b]).1 = false ∧ (m.acceptBytes (b :: bs)).1 = false := by
  cases hopen : m.stopped with
  | true => simp [acceptBytes_of_stopped hopen]
  | false =>
    obtain ⟨alone, agree₁⟩ := agree_acceptBytes hopen [b]
    obtain ⟨all, agree⟩ := agree_acceptBytes hopen (b :: bs)
    rcases advance_cons m b bs with ⟨m₁, first, same, onward⟩ | ⟨refused, refused'⟩
    · refine Or.inl ⟨(m.acceptBytes [b]).2, ?_, ?_⟩
      · have accepted : (m.acceptBytes [b]).1 = true := by rw [alone, first]
        exact Prod.ext accepted rfl
      · rw [first] at agree₁
        have hopen₁ : (m.acceptBytes [b]).2.stopped = false := (stopped_acceptBytes m [b]).trans hopen
        obtain ⟨rest, agree'⟩ := agree_acceptBytes hopen₁ bs
        obtain ⟨rest₁, agree₁⟩ := agree₁.advance bs
        refine ⟨all.trans (same.trans (rest₁.symm.trans rest.symm)), ?_⟩
        intro accepted
        have onward := onward (rest₁.symm.trans (rest.symm.trans accepted))
        exact agree.trans (onward.trans (agree₁.symm.trans agree'.symm))
    · exact Or.inr ⟨alone.trans refused, all.trans refused'⟩

/-- The empty byte string is accepted, and the text may end after it if it may end before. -/
theorem acceptBytes_nil (hopen : m.stopped = false) :
    (m.acceptBytes []).1 = true ∧ (m.acceptBytes []).2.mayEnd = m.mayEnd := by
  obtain ⟨accepted, agree⟩ := agree_acceptBytes hopen []
  rw [accepted, agree.mayEnd]
  cases hm : m.position with
  | single s before => simp [Matcher.advance, hm, Table.run?, mayEnd, rootTable]
  | stacked stack => simp [Matcher.advance, hm, Stack.advance, Stack.readWhile, mayEnd]

/-! ## Matchers on a grammar -/

/-- A matcher follows a text on a stack, or stands at a state of the table of the root rule. -/
def Follows (c : Compiled) (m : Matcher) : Prop := (∃ w, At c w m) ∨ ∃ s, OnTable c s m

/-- Whatever is asked of a new matcher, it follows its grammar. -/
theorem follows_run (hc : c.Regular) (o : Options) (usualDepth : Nat) (calls : List Call) :
    Follows c ((new c o usualDepth).run ⟨[], 0⟩ calls).1 := by
  cases hsingle : c.isSingle with
  | true => exact Or.inr (exists_onTable_run (hc.table _ hc.root_lt) hsingle o usualDepth calls)
  | false => exact Or.inl (exists_at_run hsingle o usualDepth calls)

theorem Follows.agree (h : Follows c m) (agree : Agree m m') : Follows c m' := by
  rcases h with ⟨w, h⟩ | ⟨s, h⟩
  · exact Or.inl ⟨w, h.agree agree⟩
  · exact Or.inr ⟨s, h.agree agree⟩

theorem Follows.advance (hc : c.Regular) (h : Follows c m) (bs : Bytes) : Follows c (m.advance bs).2 := by
  rcases h with ⟨w, h⟩ | ⟨s, h⟩
  · exact Or.inl (h.advance bs).2
  · right
    rcases h.advance (hc.table _ hc.root_lt) bs with ⟨s', m', -, hread, -, h'⟩ | ⟨-, hread⟩
    · exact ⟨s', hread ▸ h'⟩
    · exact ⟨s, hread ▸ h⟩

theorem Follows.acceptBytes (hc : c.Regular) (h : Follows c m) (bs : Bytes) :
    Follows c (m.acceptBytes bs).2 := by
  cases hopen : m.stopped with
  | true => rwa [acceptBytes_of_stopped hopen]
  | false => exact (h.advance hc bs).agree (agree_acceptBytes hopen bs).2.symm

/-- At a state of a table, a byte can be read that leads to a state. -/
theorem OnTable.reads_iff (hc : c.Regular) {s : StateId} (h : OnTable c s m) :
    m.Reads b ↔ ((c.table c.root).next? s b).isSome = true := by
  obtain ⟨before, position⟩ := h.exists_before
  obtain ⟨rfl, -, -⟩ := h
  have scans : ((m.compiled.table m.compiled.root).next? s b).isSome = true →
      (m.compiled.table m.compiled.root).scansAt s = true := by
    intro reads
    obtain ⟨s', hs'⟩ := Option.isSome_iff_exists.1 reads
    exact (hc.table _ hc.root_lt).scans s b s' hs'
  simpa [Matcher.Reads, scanning, position, Stack.State.Reads] using scans

/-- On a stack, all current states can read something. -/
theorem At.scanning_eq (hc : c.Regular) (h : At c w m) :
    m.scanning = (levels c m.ceiling w).current.toList := by
  obtain ⟨rfl, position⟩ := h
  simp only [scanning, position]
  apply List.filter_eq_self.2
  intro s hs
  exact Stack.scans_of_current hc (Array.mem_toList_iff.1 hs)

/-- A byte can be accepted only if there is a transition for it. -/
theorem Follows.reads_of_advance (hc : c.Regular) (h : Follows c m) (read : (m.advance [b]).1 = true) :
    m.Reads b := by
  rcases h with ⟨w, h⟩ | ⟨s, h⟩
  · have survives := (h.advance [b]).1.1 read
    obtain ⟨s, hs, reads⟩ := Stack.exists_reads_of_alive hc (Stack.survives_cons.1 survives).1
    rw [Matcher.Reads, h.scanning_eq hc, h.compiled]
    exact ⟨s, Array.mem_toList_iff.2 hs, reads⟩
  · rw [h.reads_iff hc]
    rcases h.advance (hc.table _ hc.root_lt) [b] with ⟨s', m', hrun, -⟩ | ⟨-, hread⟩
    · rw [← Table.run?_singleton, hrun, Option.isSome_some]
    · simp [hread] at read

/-- The byte that is tried next, if there is one. -/
def onlyByte? (m : Matcher) : Option UInt8 :=
  match m.position with
  | .single s _ => m.rootTable.onlyByte? s
  | .stacked stack => Stack.commonByte? m.compiled stack.current.toList

/-- The byte that is tried next is the only one for which there is a transition. -/
theorem Follows.onlyByte?_eq_some (hc : c.Regular) (h : Follows c m) :
    m.onlyByte? = some b ↔ ∀ b', m.Reads b' ↔ b' = b := by
  rcases h with ⟨w, h⟩ | ⟨s, h⟩
  · have only : m.onlyByte? = Stack.commonByte? c m.scanning := by
      rw [h.scanning_eq hc, Matcher.onlyByte?, h.position, h.compiled]
    rw [only, Stack.commonByte?_eq_some_of_scan]
    · simp only [Matcher.Reads, h.compiled]
    · intro s hs
      rw [h.scanning_eq hc, Array.mem_toList_iff] at hs
      have rule_lt := (Stack.before_of_current (Stack.inRange_levels hc w) hs).rule_lt
      obtain ⟨b, s', hs'⟩ := (hc.table _ rule_lt).next_of_scans s.state (Stack.scans_of_current hc hs)
      exact ⟨b, by rw [Stack.State.Reads, hs', Option.isSome_some]⟩
  · obtain ⟨before, position⟩ := h.exists_before
    simp only [h.reads_iff hc, Matcher.onlyByte?, position, rootTable, h.compiled, Table.onlyByte?_eq_some]

/-! ## Both loops -/

/-- The bytes that are accepted one after the other, each of which is the only one, up to `n` of them. -/
def forcedBytes : (n : Nat) → Matcher → Bytes
  | 0, _ => []
  | n + 1, m =>
    if m.mayEnd then []
    else
      match m.onlyByte? with
      | none => []
      | some b =>
        match m.acceptBytes? [b] with
        | none => []
        | some m => b :: forcedBytes n m

theorem acceptBytes?_of_open (hopen : m.stopped = false) (bs : Bytes) :
    m.acceptBytes? bs = (done? (m.advance bs)).map (·.record (.bytes bs.length)) := by
  rw [acceptBytes?, acceptBytes, if_neg (by simp [hopen]), Matcher.read]
  split <;> rename_i hread <;> rw [hread] <;> rfl

theorem Position.bare_eq_single {p : Position} {s : StateId} :
    p.bare = .single s [] ↔ ∃ before, p = .single s before := by
  cases p <;> simp [bare]

theorem Position.bare_eq_stacked {p : Position} {stack : Stack} :
    p.bare = .stacked stack ↔ p = .stacked stack := by
  cases p <;> simp [bare]

/-- On the table of the root rule, the forced bytes are those that are accepted one after the other. -/
theorem forced_eq (n : Nat) : ∀ {m : Matcher} {s : StateId}, m.position.bare = .single s [] →
    m.stopped = false → m.rootTable.forced n s = m.forcedBytes n := by
  induction n with
  | zero => exact fun _ _ => rfl
  | succ n ih =>
    intro m s position hopen
    obtain ⟨before, position⟩ := Position.bare_eq_single.1 position
    have ends : m.mayEnd = m.rootTable.accepts s := by rw [mayEnd, position]
    have only : m.onlyByte? = m.rootTable.onlyByte? s := by rw [onlyByte?, position]
    rw [Table.forced, forcedBytes, ends, only]
    split
    · rfl
    · cases m.rootTable.onlyByte? s with
      | none => rfl
      | some b =>
        dsimp only
        rw [acceptBytes?_of_open hopen, Matcher.advance, position]
        simp only [Table.run?_singleton]
        cases m.rootTable.next? s b with
        | none => rfl
        | some s' =>
          have agree := agree_record { m with position := .single s' (s :: before) } (.bytes 1)
          have rest := ih agree.position (agree.stopped.trans hopen)
          rw [agree.rootTable] at rest
          exact congrArg (b :: ·) rest

/-- On a stack, the forced bytes are those that are accepted one after the other. -/
theorem follow_eq (n : Nat) : ∀ {m : Matcher} {stack : Stack}, m.position.bare = .stacked stack →
    m.stopped = false → (stack.follow m.compiled m.ceiling n).1 = m.forcedBytes n := by
  induction n with
  | zero => exact fun _ _ => rfl
  | succ n ih =>
    intro m stack position hopen
    replace position := Position.bare_eq_stacked.1 position
    have ends : m.mayEnd = stack.mayEnd := by rw [mayEnd, position]
    have only : m.onlyByte? = Stack.commonByte? m.compiled stack.current.toList := by
      rw [onlyByte?, position]
    rw [Stack.follow, forcedBytes, ends, only]
    split
    · rfl
    · cases Stack.commonByte? m.compiled stack.current.toList with
      | none => rfl
      | some b =>
        dsimp only
        rw [acceptBytes?_of_open hopen, Matcher.advance, position]
        simp only [Stack.advance, Stack.readWhile]
        cases stack.next? m.compiled m.ceiling b with
        | none => rfl
        | some l =>
          have agree := agree_record { m with position := .stacked (Array.push stack l) } (.bytes 1)
          have rest := ih agree.position (agree.stopped.trans hopen)
          rw [agree.compiled, agree.ceiling] at rest
          exact congrArg (b :: ·) rest

/-! ## Forced runs -/

/-- What is forced is the same by both loops. -/
theorem findForced_fst (hopen : m.stopped = false) : m.findForced.1 = m.forcedBytes maxForced := by
  rw [findForced, if_neg (by simp [hopen])]
  cases hm : m.position with
  | single s before => exact forced_eq maxForced (Position.bare_eq_single.2 ⟨before, hm⟩) hopen
  | stacked stack => exact follow_eq maxForced (Position.bare_eq_stacked.2 hm) hopen

theorem done?_eq_some {x : Bool × Matcher} : done? x = some m ↔ x = (true, m) := by
  obtain ⟨done, m'⟩ := x
  cases done <;> simp [done?]

theorem done?_eq_none {x : Bool × Matcher} : done? x = none ↔ x.1 = false := by
  obtain ⟨done, m'⟩ := x
  cases done <;> simp [done?]

/-- If no byte is tried next, none is forced. -/
theorem Follows.stops (hc : c.Regular) (h : Follows c m) (none : m.onlyByte? = none) : m.Stops := by
  by_cases read : ∃ b, m.Reads b
  · obtain ⟨b, hb⟩ := read
    by_cases other : ∃ b', b ≠ b' ∧ m.Reads b'
    · obtain ⟨b', hne, hb'⟩ := other
      exact Or.inr (Or.inr (Or.inl ⟨b, b', hne, hb, hb'⟩))
    · have only : m.onlyByte? = some b := by
        apply (h.onlyByte?_eq_some hc).2
        intro b'
        constructor
        · intro hb'
          by_contra hne
          exact other ⟨b', Ne.symm hne, hb'⟩
        · intro same
          exact same ▸ hb
      rw [none] at only
      cases only
  · exact Or.inr (Or.inl fun b hb => read ⟨b, hb⟩)

/-- The bytes that are accepted one after the other are a forced run. -/
theorem Follows.forcedBytes_spec (hc : c.Regular) (n : Nat) : ∀ {m : Matcher}, Follows c m →
    (m.forcedBytes n).length ≤ n ∧
      ∃ m', ForcedTo m (m.forcedBytes n) m' ∧ ((m.forcedBytes n).length = n ∨ m'.Stops) := by
  induction n with
  | zero =>
    intro m h
    exact ⟨le_rfl, m, .here m, Or.inl rfl⟩
  | succ n ih =>
    intro m h
    rw [forcedBytes]
    split
    · rename_i ends
      exact ⟨Nat.zero_le _, m, .here m, Or.inr (Or.inl ends)⟩
    · rename_i goesOn
      cases hnext : m.onlyByte? with
      | none => exact ⟨Nat.zero_le _, m, .here m, Or.inr (h.stops hc hnext)⟩
      | some b =>
        have only := (h.onlyByte?_eq_some hc).1 hnext
        dsimp only
        cases hread : m.acceptBytes? [b] with
        | none =>
          have refused : (m.acceptBytes [b]).1 = false := done?_eq_none.1 hread
          exact ⟨Nat.zero_le _, m, .here m, Or.inr (Or.inr (Or.inr (Or.inr ⟨b, only, refused⟩)))⟩
        | some m₁ =>
          have read : m.acceptBytes [b] = (true, m₁) := done?_eq_some.1 hread
          have follows : Follows c m₁ := by simpa only [read] using h.acceptBytes hc [b]
          obtain ⟨length, m', forced, stops⟩ := ih follows
          refine ⟨Nat.succ_le_succ length, m', .byte (by simpa using goesOn) only read forced, ?_⟩
          exact stops.imp_left (congrArg Nat.succ)

/-- Each start of a forced run is accepted. -/
theorem ForcedTo.accepts {run : Bytes} (forced : ForcedTo m run m') : m.stopped = false →
    ∀ bs, bs <+: run → (m.acceptBytes bs).1 = true := by
  induction forced with
  | here m =>
    intro hopen bs hbs
    rw [List.prefix_nil.1 hbs]
    exact (acceptBytes_nil hopen).1
  | @byte m m₁ m' b run goesOn only read rest ih =>
    intro hopen bs hbs
    cases bs with
    | nil => exact (acceptBytes_nil hopen).1
    | cons b' bs =>
      obtain ⟨rfl, starts⟩ := List.cons_prefix_cons.1 hbs
      have hopen₁ : m₁.stopped = false := by
        have stopped := stopped_acceptBytes m [b']
        rwa [read, hopen] at stopped
      rcases acceptBytes_cons m b' bs with ⟨m₂, first, all, -⟩ | ⟨refused, -⟩
      · obtain rfl : m₁ = m₂ := congrArg Prod.snd (read.symm.trans first)
        exact all.trans (ih hopen₁ bs starts)
      · simp [read] at refused

/-- Every text that can be finished starts with the forced run. -/
theorem ForcedTo.isPrefix (hc : c.Regular) {run : Bytes} (forced : ForcedTo m run m') : Follows c m →
    ∀ bs, (m.acceptBytes bs).1 = true → (m.acceptBytes bs).2.mayEnd = true → run <+: bs := by
  induction forced with
  | here m => exact fun _ _ _ _ => List.nil_prefix
  | @byte m m₁ m' b run goesOn only read rest ih =>
    intro h bs accepted ends
    have hopen : m.stopped = false := by
      by_contra stopped
      rw [acceptBytes_of_stopped (by simpa using stopped)] at accepted
      cases accepted
    cases bs with
    | nil =>
      rw [(acceptBytes_nil hopen).2, goesOn] at ends
      cases ends
    | cons b' bs =>
      rcases acceptBytes_cons m b' bs with ⟨m₂, first, all, agree⟩ | ⟨-, refused⟩
      · -- The text starts with a byte for which there is a transition, so with the only such byte.
        have alone : (m.advance [b']).1 = true := by
          rw [← (agree_acceptBytes hopen [b']).1, first]
        obtain rfl : b' = b := (only b').1 (h.reads_of_advance hc alone)
        obtain rfl : m₁ = m₂ := congrArg Prod.snd (read.symm.trans first)
        have follows : Follows c m₁ := by simpa only [read] using h.acceptBytes hc [b']
        have accepted₁ := all.symm.trans accepted
        have ends₁ := (agree accepted₁).mayEnd.symm.trans ends
        exact List.cons_prefix_cons.2 ⟨rfl, ih follows bs accepted₁ ends₁⟩
      · rw [refused] at accepted
        cases accepted

/-- The forced text is made of the characters at the start of what is forced. -/
theorem ofString_forcedText (m : Matcher) :
    Utf8.ofString m.forcedText = Utf8.encode (Utf8.validStart m.findForced.1) := by
  rw [Utf8.ofString, forcedText, jump, String.toList_ofList]

/-! ## The forced text -/

/-- Whatever was asked of a matcher, short of a stop token, it accepts the forced text, every byte string
after which the text may end starts with it, and it is the longest text that a forced run starts with. -/
theorem forcedText_forced {v : Vocabulary} {c : Compiled} (hc : c.IsCompiled v ∨ c.IsRead v) (o : Options)
    (usualDepth : Nat) (calls : List Call) :
    let m := ((new c o usualDepth).run ⟨[], 0⟩ calls).1
    m.stopped = false →
      (m.acceptText m.forcedText).1 = true ∧
      (∀ bs, (m.acceptBytes bs).1 = true → (m.acceptBytes bs).2.mayEnd = true →
        Utf8.ofString m.forcedText <+: bs) ∧
      ∃ run, m.IsForcedRun run ∧ Utf8.ofString m.forcedText <+: run ∧
        ∀ text, Utf8.ofString text <+: run → Utf8.ofString text <+: Utf8.ofString m.forcedText := by
  intro m hopen
  have regular := Compiled.regular_of_made hc
  have follows : Follows c m := follows_run regular o usualDepth calls
  obtain ⟨length, m', forced, stops⟩ := follows.forcedBytes_spec regular maxForced
  rw [← findForced_fst hopen] at length forced stops
  have start : Utf8.ofString m.forcedText <+: m.findForced.1 := by
    rw [ofString_forcedText, Utf8.encode_prefix_iff]
  refine ⟨forced.accepts hopen _ start, ?_, m.findForced.1, ⟨length, m', forced, stops⟩, start, ?_⟩
  · intro bs accepted ends
    exact start.trans (forced.isPrefix regular follows bs accepted ends)
  · intro text htext
    obtain ⟨rest, hrest⟩ := Utf8.encode_prefix_iff.1 htext
    rw [ofString_forcedText, ← hrest, Utf8.encode_append]
    exact List.prefix_append _ _

/-- `root ::= "aé" root "z" | "aè"`, where both characters after `a` start with the same byte. -/
def splitChars : Grammar where
  rules := #[⟨"root", 5, none⟩]
  exprs := #[.leaf (.literal [97, 195, 169]), .leaf (.reference 0), .leaf (.literal [122]),
    .sequence [0, 1, 2], .leaf (.literal [97, 195, 168]), .choice [3, 4]]
  root := 0

theorem valid_splitChars : splitChars.Valid := by decide

/-- After calls, if a grammar compiles: whether the root rule calls no other, whether the matcher was
stopped, and which bytes are forced. -/
def forcedAfter (g : Grammar) (v : Vocabulary) (calls : List Call) : Option (Bool × Bool × Bytes) := do
  let c ← (Compiled.compile g v).toOption
  let m := ((new c .default 10).run ⟨[], 0⟩ calls).1
  return (c.isSingle, m.stopped, m.findForced.1)

theorem forcedAfter_eq_some {g : Grammar} {v : Vocabulary} {calls : List Call} {x : Bool × Bool × Bytes}
    (h : forcedAfter g v calls = some x) : ∃ c, Compiled.compile g v = .ok c ∧
      let m := ((new c .default 10).run ⟨[], 0⟩ calls).1
      c.isSingle = x.1 ∧ m.stopped = x.2.1 ∧ m.findForced.1 = x.2.2 := by
  obtain ⟨c, hc, h⟩ := Option.bind_eq_some_iff.1 h
  obtain rfl := Option.some.inj h
  exact ⟨c, Except.toOption_eq_some.1 hc, rfl, rfl, rfl⟩

/-- On a stack, after `aé` two bytes are forced again, of which the second one starts two characters, so
that the forced text is `a`. -/
theorem splitChars_forced : ∃ c, Compiled.compile splitChars Compiled.justA = .ok c ∧ c.isSingle = false ∧
    let m := ((new c .default 10).run ⟨[], 0⟩ [.accept (.bytes [97, 195, 169])]).1
    m.stopped = false ∧ m.findForced.1 = [97, 195] ∧ Utf8.ofString m.forcedText = [97] ∧
      (m.acceptText m.forcedText).1 = true ∧
      ∀ bs, (m.acceptBytes bs).1 = true → (m.acceptBytes bs).2.mayEnd = true → [97] <+: bs := by
  have forced : forcedAfter splitChars Compiled.justA [.accept (.bytes [97, 195, 169])] =
      some (false, false, [97, 195]) := by decide +kernel
  obtain ⟨c, hc, single, hopen, bytes⟩ := forcedAfter_eq_some forced
  refine ⟨c, hc, single, hopen, bytes, ?_⟩
  obtain ⟨accepted, starts, -⟩ := forcedText_forced (Or.inl ⟨_, valid_splitChars, hc⟩) .default 10
    [.accept (.bytes [97, 195, 169])] hopen
  have first : Utf8.next? [97, 195] = some ('a', [195]) := by decide
  have second : Utf8.next? [195] = none := by decide
  have text : Utf8.ofString
      ((new c .default 10).run ⟨[], 0⟩ [.accept (.bytes [97, 195, 169])]).1.forcedText = [97] := by
    rw [ofString_forcedText, bytes, Utf8.validStart_of_some first, Utf8.validStart_of_none second]
    rfl
  rw [text] at starts
  exact ⟨text, accepted, starts⟩

end Matcher

end ConstrainedDecoding
