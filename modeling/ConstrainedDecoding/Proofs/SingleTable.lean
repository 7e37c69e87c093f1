import ConstrainedDecoding.Proofs.NextTokens

/-!
# The tokens that a single table allows

If the root rule calls no other, a matcher stands at a state of its table. It then allows the tokens
that it accepts and after which something can still come: the text may end there, or some byte can
be read. It also accepts tokens after which nothing can come, but does not allow them.
-/
namespace ConstrainedDecoding

namespace Table

variable {t : Table} {rules : Nat}

@[simp] theorem run?_singleton (s : StateId) (b : UInt8) : t.run? s [b] = t.next? s b := by
  rw [run?]
  cases t.next? s b <;> rfl

/-- Reading bytes leads from state to state of a table. -/
theorem run?_lt (ht : t.InRange rules) (bs : Bytes) : ∀ {s s' : StateId}, s < t.size →
    t.run? s bs = some s' → s' < t.size := by
  induction bs with
  | nil =>
    intro s s' hs hrun
    exact Option.some.inj hrun ▸ hs
  | cons b bs ih =>
    intro s s' hs hrun
    rw [run?] at hrun
    cases hnext : t.next? s b with
    | none => simp [hnext] at hrun
    | some s₁ =>
      simp only [hnext] at hrun
      exact ih (ht.next_lt s b s₁ hnext) hrun

/-- A state is marked as one that reads if and only if it reads some byte. -/
theorem scansAt_iff (ht : t.InRange rules) {s : StateId} :
    t.scansAt s = true ↔ ∃ b s', t.next? s b = some s' :=
  ⟨ht.next_of_scans s, fun ⟨b, s', h⟩ => ht.scans s b s' h⟩

/-- The mask of a state allows the tokens that the state accepts, also if it has the mask that all
states without bytes share. -/
theorem allows_maskOf {v : Vocabulary} (ht : t.InRange rules) (hv : v.Regular) (s : StateId)
    {row : Bitmask} (hrow : row.size = Bitmask.wordsFor v.size) (id : Nat) :
    ((MaskPool.maskOf v t s).applyTo row).allows id = true ↔
      (id ∈ v.sortedIds ∧ t.classify s (v.bytesOf id) = .accepted) ∨ row.allows id = true := by
  rw [MaskPool.maskOf]
  split
  · exact TokenMask.allows_ofState hv t s hrow id
  · rename_i silent
    have rejects : ¬ (id ∈ v.sortedIds ∧ t.classify s (v.bytesOf id) = .accepted) := by
      rintro ⟨hid, haccepted⟩
      obtain ⟨b, bs, hbytes⟩ := List.exists_cons_of_ne_nil (hv.bytes_ne_nil id hid)
      obtain ⟨s', hrun, -⟩ := classify_eq_accepted.1 haccepted
      rw [hbytes, run?] at hrun
      cases hnext : t.next? s b with
      | none => simp [hnext] at hrun
      | some s₁ => exact silent (ht.scans s b s₁ hnext)
    simp [rejects, TokenMask.empty, TokenMask.applyTo]

end Table

namespace Matcher

/-- Something can come of a matcher: the text may end here, or some byte can be read. -/
def CanGoOn (m : Matcher) : Prop := m.mayEnd = true ∨ ∃ b, (m.acceptBytes [b]).1 = true

theorem canGoOn_iff_lt (m : Matcher) : m.CanGoOn ↔
    m.mayEnd = true ∨ ∃ n < 256, (m.acceptBytes [UInt8.ofNat n]).1 = true := by
  refine or_congr_right ⟨fun ⟨b, h⟩ => ⟨b.toNat, b.toNat_lt, ?_⟩, fun ⟨n, _, h⟩ => ⟨_, h⟩⟩
  rwa [UInt8.ofNat_toNat]

instance (m : Matcher) : Decidable m.CanGoOn := decidable_of_iff _ m.canGoOn_iff_lt.symm

/-- A matcher stands at a state of the table of the root rule. -/
structure OnTable (c : Compiled) (s : StateId) (m : Matcher) : Prop where
  compiled : m.compiled = c
  position : m.position.bare = .single s []
  state_lt : s < (c.table c.root).size

variable {c : Compiled} {s : StateId} {m m' : Matcher} {rules : Nat}

theorem OnTable.agree (h : OnTable c s m) (agree : Agree m m') : OnTable c s m' :=
  ⟨agree.compiled.symm.trans h.compiled, agree.position.symm.trans h.position, h.state_lt⟩

theorem OnTable.exists_before (h : OnTable c s m) : ∃ before, m.position = .single s before := by
  have := h.position
  cases hm : m.position <;> simp_all [Position.bare]

theorem OnTable.mayEnd_eq (h : OnTable c s m) : m.mayEnd = (c.table c.root).accepts s := by
  obtain ⟨before, position⟩ := h.exists_before
  obtain ⟨rfl, -, -⟩ := h
  simp [Matcher.mayEnd, position, Matcher.rootTable]

/-- A matcher at a state of a table reads what the table reads. -/
theorem OnTable.advance (ht : (c.table c.root).InRange rules) (h : OnTable c s m) (bs : Bytes) :
    (∃ s' m', (c.table c.root).run? s bs = some s' ∧ m.advance bs = (true, m') ∧
      m'.stopped = m.stopped ∧ OnTable c s' m') ∨
    (c.table c.root).run? s bs = none ∧ m.advance bs = (false, m) := by
  obtain ⟨before, position⟩ := h.exists_before
  obtain ⟨rfl, -, hs⟩ := h
  simp only [Matcher.advance, position, Matcher.rootTable]
  cases hrun : (m.compiled.table m.compiled.root).run? s bs with
  | none => exact Or.inr ⟨rfl, rfl⟩
  | some s' => exact Or.inl ⟨s', _, rfl, rfl, rfl, rfl, rfl, Table.run?_lt ht bs hs hrun⟩

/-! ## Reaching states -/

/-- Whatever is asked of a new matcher, it stands at a state of the table. -/
theorem exists_onTable_run (ht : (c.table c.root).InRange rules) (hc : c.isSingle = true)
    (o : Options) (usualDepth : Nat) (calls : List Call) :
    ∃ s, OnTable c s ((new c o usualDepth).run ⟨[], 0⟩ calls).1 := by
  refine holds_run (P := fun m => ∃ s, OnTable c s m) ?agree ?read ?stop ?start calls
  case agree => exact fun m m' agree ⟨s, h⟩ => ⟨s, h.agree agree⟩
  case read =>
    rintro m m' bytes hread ⟨s, h⟩
    rcases h.advance ht bytes with ⟨s', m'', -, hread', -, h'⟩ | ⟨-, hread'⟩
    · obtain rfl : m' = m'' := congrArg Prod.snd (hread.symm.trans hread')
      exact ⟨s', h'⟩
    · simp [hread] at hread'
  case stop => exact fun m ⟨s, h⟩ => ⟨s, h.compiled, h.position, h.state_lt⟩
  case start => exact ⟨0, rfl, by simp [new, startPosition, hc, Position.bare], ht.pos⟩

/-! ## Accepting tokens -/

/-- Something can come of a matcher that was not stopped if its state accepts or reads. -/
theorem OnTable.canGoOn_iff (ht : (c.table c.root).InRange rules) (h : OnTable c s m)
    (hopen : m.stopped = false) : m.CanGoOn ↔
      (c.table c.root).scansAt s = true ∨ (c.table c.root).accepts s = true := by
  have reads (b : UInt8) : (m.acceptBytes [b]).1 = true ↔
      ∃ s', (c.table c.root).next? s b = some s' := by
    rw [acceptBytes, if_neg (by simp [hopen]), read_fst]
    rcases h.advance ht [b] with ⟨s', m', hrun, hread, -⟩ | ⟨hrun, hread⟩
    · rw [Table.run?_singleton] at hrun
      simp [hread, hrun]
    · rw [Table.run?_singleton] at hrun
      simp [hread, hrun]
  rw [CanGoOn, h.mayEnd_eq, or_comm, Table.scansAt_iff ht]
  simp only [reads]

/-- Something can come of a matcher after a stop token, as the text may end there. -/
theorem canGoOn_of_stop {id : Nat} (hstop : id ∈ m.stopIds) (h : (m.acceptToken id).1 = true) :
    (m.acceptToken id).2.CanGoOn := by
  obtain ⟨hopen, hlt, hend⟩ := (acceptToken_iff m id).1 h
  rw [if_pos hstop] at hend
  have : m.acceptToken id = (true, { m with stopped := true }.record .stop) := by
    simp [acceptToken, hopen, hlt, hstop, hend]
  rw [this]
  exact Or.inl ((agree_record _ _).mayEnd.trans hend)

/-- At a state, a byte string can be read and something can come after it, if the state accepts it. -/
theorem OnTable.read_and_canGoOn_iff (ht : (c.table c.root).InRange rules) (h : OnTable c s m)
    (hopen : m.stopped = false) (bs : Bytes) : (m.read bs).1 = true ∧ (m.read bs).2.CanGoOn ↔
      (c.table c.root).classify s bs = .accepted := by
  rw [Table.classify_eq_accepted, Matcher.read]
  rcases h.advance ht bs with ⟨s', m', hrun, hread, hstopped, h'⟩ | ⟨hrun, hread⟩
  · have agree := (agree_record m' (.bytes bs.length)).symm
    have recorded := (h'.agree agree).canGoOn_iff ht
      (agree.stopped.symm.trans (hstopped.trans hopen))
    simp [hread, hrun, recorded]
  · simp [hread, hrun]

/-! ## Rows -/

/-- The row of a matcher at a state of a table that was not stopped. -/
theorem OnTable.row_eq (hc : c.Masked) (h : OnTable c s m) (hopen : m.stopped = false) :
    m.row = m.setStops ((MaskPool.maskOf c.vocabulary (c.table c.root) s).applyTo
      (Bitmask.zero (Bitmask.wordsFor c.vocabulary.size))) := by
  obtain ⟨before, position⟩ := h.exists_before
  rw [← hc.mask _ hc.regular.root_lt s h.state_lt]
  obtain ⟨rfl, -, -⟩ := h
  simp [row, overwrite, hopen, position]

/-- The row of a matcher at a state of a table allows the tokens that the matcher accepts and after
which something can come. -/
theorem OnTable.row_spec (hc : c.Masked) (h : OnTable c s m) :
    m.row.size = Bitmask.wordsFor c.vocabulary.size ∧ ∀ id, m.row.allows id = true ↔
      (m.acceptToken id).1 = true ∧ (m.acceptToken id).2.CanGoOn := by
  have ht := hc.regular.table _ hc.regular.root_lt
  have zero := Bitmask.size_zero (Bitmask.wordsFor c.vocabulary.size)
  cases hopen : m.stopped with
  | true =>
    have row : m.row = Bitmask.zero (Bitmask.wordsFor c.vocabulary.size) :=
      h.compiled ▸ row_of_stopped hopen
    refine ⟨by rw [row, zero], fun id => ?_⟩
    rw [row, Bitmask.allows_zero, acceptToken_iff, hopen]
    simp
  | false =>
    set mask := (MaskPool.maskOf c.vocabulary (c.table c.root) s).applyTo
      (Bitmask.zero (Bitmask.wordsFor c.vocabulary.size)) with hmask
    have size : mask.size = Bitmask.wordsFor c.vocabulary.size :=
      (TokenMask.size_applyTo _ _).trans zero
    obtain ⟨size', allows⟩ := allows_setStops m (h.compiled.symm ▸ size)
    rw [h.row_eq hc hopen, ← hmask]
    refine ⟨size'.trans size, fun id => ?_⟩
    rw [allows, hmask, Table.allows_maskOf ht hc.vocabulary s zero, Bitmask.allows_zero]
    obtain rfl := h.compiled
    have silent := hc.vocabulary.mem_sortedIds id
    by_cases hlt : id < m.compiled.vocabulary.size
    · by_cases hstop : id ∈ m.stopIds
      · rw [if_pos ⟨hstop, hlt⟩, and_iff_left_of_imp (canGoOn_of_stop hstop), acceptToken_iff,
          if_pos hstop, hopen]
        simp [hlt]
      · rw [if_neg (by simp [hstop])]
        by_cases hid : id ∈ m.compiled.vocabulary.sortedIds
        · obtain ⟨hspecial, hknown⟩ := silent.1 hid
          have token : m.acceptToken id = m.read (m.compiled.vocabulary.bytesOf id) := by
            simp [acceptToken, hopen, hlt, hstop, hspecial, hknown]
          rw [token, h.read_and_canGoOn_iff ht hopen]
          simp [hid]
        · refine iff_of_false (by simp [hid]) ?_
          rw [acceptToken_iff, if_neg hstop]
          rintro ⟨⟨-, -, hspecial, hknown, -⟩, -⟩
          exact hid (silent.2 ⟨hspecial, hknown⟩)
    · have hid : id ∉ m.compiled.vocabulary.sortedIds := fun hid =>
        hlt (hc.vocabulary.lt_size hid)
      refine iff_of_false (by simp [hlt, hid]) ?_
      rw [acceptToken_iff]
      rintro ⟨⟨-, hlt', -⟩, -⟩
      exact hlt hlt'

/-! ## The tokens that are allowed -/

/-- `root ::= "a" [] | "b"`, where no character belongs to the class, so that nothing can come after
`a`. -/
def deadEnd : Grammar where
  rules := #[⟨"root", 4, none⟩]
  exprs := #[.leaf (.literal [97]), .leaf (.charClass ⟨false, []⟩), .sequence [0, 1],
    .leaf (.literal [98]), .choice [2, 3]]
  root := 0

theorem valid_deadEnd : deadEnd.Valid := by decide

/-- If a grammar compiles against the given tokens: their number, whether the root rule calls no other,
and for a token whether a new matcher accepts it and whether something can come after it. -/
def glance (g : Grammar) (tokens : List String) (id : Nat) : Option (Nat × Bool × Bool × Bool) := do
  let v ← (Vocabulary.ofTokens tokens .raw none .unset false).toOption
  let c ← (Compiled.compile g v).toOption
  let (accepted, m) := (new c .default 10).acceptToken id
  return (v.size, c.isSingle, accepted, decide m.CanGoOn)

theorem glance_eq_some {g : Grammar} {tokens : List String} {id : Nat}
    {x : Nat × Bool × Bool × Bool} (h : glance g tokens id = some x) :
    ∃ v c, Vocabulary.ofTokens tokens .raw none .unset false = .ok v ∧ Compiled.compile g v = .ok c ∧
      v.size = x.1 ∧ c.isSingle = x.2.1 ∧ ((new c .default 10).acceptToken id).1 = x.2.2.1 ∧
        decide ((new c .default 10).acceptToken id).2.CanGoOn = x.2.2.2 := by
  obtain ⟨v, hv, h⟩ := Option.bind_eq_some_iff.1 h
  obtain ⟨c, hc, h⟩ := Option.bind_eq_some_iff.1 h
  obtain rfl := Option.some.inj h
  exact ⟨v, c, Except.toOption_eq_some.1 hv, Except.toOption_eq_some.1 hc, rfl, rfl, rfl, rfl⟩

/-- Whatever was asked of a matcher that stands at a state of a table, the row that it writes allows
just those tokens that it would accept and after which something can come: the text may end there,
or some byte can be read. -/
theorem allows_iff_acceptToken_and_canGoOn {g : Grammar} {v : Vocabulary} {tokens : List String}
    {kind : Vocabulary.Kind} {size : Option Nat} {stop : Setting (List Nat)} {addsSpace : Bool}
    (hg : g.Valid) (hv : Vocabulary.ofTokens tokens kind size stop addsSpace = .ok v)
    (hc : Compiled.compile g v = .ok c) (hsingle : c.isSingle = true) (o : Options)
    (usualDepth : Nat) (calls : List Call) {buffer : Bitmask} {batch start : Nat}
    (hstart : Bitmask.rowStart? buffer.size v.size batch = some start) :
    let m := ((new c o usualDepth).run ⟨[], 0⟩ calls).1
    ∃ buffer', (m.fill buffer batch).1 = some buffer' ∧ ∀ id,
      (buffer'.rowAt start (Bitmask.wordsFor v.size)).allows id = true ↔
        (m.acceptToken id).1 = true ∧ (m.acceptToken id).2.CanGoOn := by
  intro m
  have masked := Compiled.masked_of_compile hg (Vocabulary.regular_of_ofTokens hv) hc
  obtain rfl : c.vocabulary = v := (Compiled.compile_spec hg hc).2.2.2
  obtain ⟨s, h⟩ : ∃ s, OnTable c s m := exists_onTable_run
    (masked.regular.table _ masked.regular.root_lt) hsingle o usualDepth calls
  obtain ⟨rowSize, allows⟩ := h.row_spec masked
  rw [← h.compiled] at hstart rowSize ⊢
  obtain ⟨buffer', hfill, hrow⟩ := fill_of_room rowSize hstart
  exact ⟨buffer', hfill, fun id => hrow ▸ allows id⟩

/-- A token that leads to a dead end is accepted, but not allowed. -/
theorem deadEnd_accepts : ∃ v c buffer',
    Vocabulary.ofTokens ["a", "b"] .raw none .unset false = .ok v ∧
    Compiled.compile deadEnd v = .ok c ∧ c.isSingle = true ∧
    ((new c .default 10).acceptToken 0).1 = true ∧
    ((new c .default 10).fill #[0] 0).1 = some buffer' ∧ (buffer'.rowAt 0 1).allows 0 = false := by
  have seen : glance deadEnd ["a", "b"] 0 = some (2, true, true, false) := by decide +kernel
  obtain ⟨v, c, hv, hc, size, single, accepted, stuck⟩ := glance_eq_some seen
  have hstart : Bitmask.rowStart? (#[0] : Bitmask).size v.size 0 = some 0 := by
    rw [size]
    decide
  obtain ⟨buffer', hfill, allows⟩ := allows_iff_acceptToken_and_canGoOn valid_deadEnd hv hc single
    .default 10 [] hstart
  rw [size] at allows
  refine ⟨v, c, buffer', hv, hc, single, accepted, hfill, Bool.eq_false_iff.2 fun allowed => ?_⟩
  exact of_decide_eq_false stuck ((allows 0).1 allowed).2

end Matcher

end ConstrainedDecoding
