import ConstrainedDecoding.Proofs.Replay
import ConstrainedDecoding.Proofs.Rows

/-!
# The tokens that may come next

A matcher that follows a stack allows every token that it accepts. Besides, it allows a token that
ends the rule of a current state where nothing goes on after the rule, as token masks know nothing
of what surrounds a rule.
-/
namespace ConstrainedDecoding

namespace Stack

variable {c : Compiled} {maxDepth : Nat}

/-- Whether a byte string ends the rule of a current state and yet cannot be read, though all of it but
the last byte can: nothing goes on after the rule. -/
def strands (c : Compiled) (maxDepth : Nat) (stack : Stack) (bytes : Bytes) : Bool :=
  (stack.current.any fun s =>
    ((c.table s.rule).run? s.state bytes).any fun t => (c.table s.rule).accepts t) &&
  (stack.advance c maxDepth bytes.dropLast).1 && ! (stack.advance c maxDepth bytes).1

theorem advance_levels_iff {w bs : Bytes} :
    ((levels c maxDepth w).advance c maxDepth bs).1 = true ↔ Survives c maxDepth w bs := by
  rcases advance_levels c maxDepth w bs with ⟨h, heq⟩ | ⟨h, heq⟩ <;> simp [h, heq]

theorem strands_levels_iff {w bs : Bytes} : (levels c maxDepth w).strands c maxDepth bs = true ↔
    (∃ s ∈ (levels c maxDepth w).current, ∃ t, (c.table s.rule).run? s.state bs = some t ∧
      (c.table s.rule).accepts t = true) ∧
    Survives c maxDepth w bs.dropLast ∧ ¬ Survives c maxDepth w bs := by
  rw [strands, Bool.and_eq_true, Bool.and_eq_true, Bool.not_eq_true', ← Bool.not_eq_true,
    advance_levels_iff, advance_levels_iff, Array.any_eq_true', and_assoc]
  simp [Option.any_eq_true]

/-- A token that is accepted by the table of a current state can be read, or strands. -/
theorem survives_or_accepted_iff (hc : c.Regular) {w bs : Bytes} (hbs : bs ≠ []) :
    (Survives c maxDepth w bs ∨ ∃ s ∈ (levels c maxDepth w).current,
      (c.table s.rule).classify s.state bs = .accepted) ↔
    Survives c maxDepth w bs ∨ (levels c maxDepth w).strands c maxDepth bs = true := by
  rw [strands_levels_iff]
  constructor
  · rintro (survives | ⟨s, hs, haccepted⟩)
    · exact Or.inl survives
    · obtain ⟨t, hrun, scans | accepts⟩ := Table.classify_eq_accepted.1 haccepted
      · exact Or.inl (survives_of_run? hc bs w s t hs hrun scans)
      · by_cases survives : Survives c maxDepth w bs
        · exact Or.inl survives
        · refine Or.inr ⟨⟨s, hs, t, hrun, accepts⟩, ?_, survives⟩
          rw [← List.dropLast_append_getLast hbs] at hrun
          exact survives_dropLast_of_run? hc hs hrun
  · rintro (survives | ⟨⟨s, hs, t, hrun, accepts⟩, -, -⟩)
    · exact Or.inl survives
    · exact Or.inr ⟨s, hs, Table.classify_eq_accepted.2 ⟨t, hrun, Or.inr accepts⟩⟩

end Stack

namespace Matcher

open Stack (levels Survives)

/-- A matcher follows a text on a stack. -/
structure At (c : Compiled) (w : Bytes) (m : Matcher) : Prop where
  compiled : m.compiled = c
  position : m.position = .stacked (levels c m.ceiling w)

variable {c : Compiled} {w : Bytes} {m m' : Matcher}

theorem At.agree (h : At c w m) (agree : Agree m m') : At c w m' where
  compiled := agree.compiled.symm.trans h.compiled
  position := by
    have := agree.position.symm
    rw [h.position] at this
    cases hm : m'.position with
    | single s before => simp [hm, Position.bare] at this
    | stacked stack => simpa [hm, Position.bare, agree.ceiling] using this

/-- A matcher that follows a text reads what a parse survives. -/
theorem At.advance (h : At c w m) (bs : Bytes) :
    ((m.advance bs).1 = true ↔ Survives c m.ceiling w bs) ∧ ∃ w', At c w' (m.advance bs).2 := by
  obtain ⟨rfl, position⟩ := h
  rw [Matcher.advance, position]
  rcases Stack.advance_levels m.compiled m.ceiling w bs with ⟨survives, heq⟩ | ⟨dead, heq⟩
  · simp only [heq]
    exact ⟨iff_of_true trivial survives, w ++ bs, rfl, rfl⟩
  · simp only [heq]
    exact ⟨iff_of_false Bool.false_ne_true dead, w, rfl, rfl⟩

/-- Whatever is asked of a new matcher, it follows a text. -/
theorem exists_at_run (hc : c.isSingle = false) (o : Options) (usualDepth : Nat)
    (calls : List Call) : ∃ w, At c w ((new c o usualDepth).run ⟨[], 0⟩ calls).1 := by
  refine holds_run (P := fun m => ∃ w, At c w m) ?agree ?read ?stop ?start calls
  case agree => exact fun m m' agree ⟨w, h⟩ => ⟨w, h.agree agree⟩
  case read =>
    rintro m m' bytes hread ⟨w, h⟩
    simpa only [hread] using (h.advance bytes).2
  case stop => exact fun m ⟨w, h⟩ => ⟨w, h.compiled, h.position⟩
  case start => exact ⟨[], rfl, by simp [new, startPosition, hc, levels, ceiling]⟩

/-! ## Stop tokens -/

private theorem allows_setStop {row : Bitmask} {size : Nat} (hrow : row.size = Bitmask.wordsFor size)
    (ends : Bool) (stop : Nat) :
    let row' := if size ≤ stop then row else if ends then row.allow stop else row.reject stop
    row'.size = row.size ∧ ∀ id, row'.allows id = true ↔
      if id = stop ∧ id < size then ends = true else row.allows id = true := by
  intro row'
  by_cases hlt : stop < size
  · have hstop : stop / 32 < row.size := hrow ▸ Bitmask.div_lt_wordsFor hlt
    cases ends with
    | true =>
      have eq : row' = row.allow stop := by simp [row', hlt]
      refine ⟨by rw [eq, Bitmask.size_allow], fun id => ?_⟩
      rw [eq, Bitmask.allows_allow hstop]
      by_cases h : id = stop <;> simp [h, hlt]
    | false =>
      have eq : row' = row.reject stop := by simp [row', hlt]
      refine ⟨by rw [eq, Bitmask.size_reject], fun id => ?_⟩
      rw [eq, Bitmask.allows_reject hstop]
      by_cases h : id = stop <;> simp [h, hlt]
  · have eq : row' = row := if_pos (by omega)
    refine ⟨by rw [eq], fun id => ?_⟩
    rw [eq, if_neg (by omega)]

/-- Stop tokens are allowed where the text may end, and nowhere else. -/
theorem allows_setStops (m : Matcher) {row : Bitmask}
    (hrow : row.size = Bitmask.wordsFor m.compiled.vocabulary.size) :
    (m.setStops row).size = row.size ∧ ∀ id, (m.setStops row).allows id = true ↔
      if id ∈ m.stopIds ∧ id < m.compiled.vocabulary.size then m.mayEnd = true
      else row.allows id = true := by
  unfold setStops
  induction m.stopIds generalizing row with
  | nil => simp
  | cons stop ids ih =>
    obtain ⟨size, allows⟩ := allows_setStop hrow m.mayEnd stop
    obtain ⟨size', allows'⟩ := ih (size.trans hrow)
    refine ⟨size'.trans size, fun id => ?_⟩
    rw [List.foldl_cons, allows', allows]
    simp only [List.mem_cons]
    split_ifs <;> tauto

/-! ## Tokens -/

/-- A token is accepted if it ends a text that may end, or if it stands for bytes that can be read. -/
theorem acceptToken_iff (m : Matcher) (id : Nat) : (m.acceptToken id).1 = true ↔
    m.stopped = false ∧ id < m.compiled.vocabulary.size ∧
      if id ∈ m.stopIds then m.mayEnd = true
      else m.compiled.vocabulary.isSpecial id = false ∧ id ∉ m.compiled.vocabulary.stopIds ∧
        (m.advance (m.compiled.vocabulary.bytesOf id)).1 = true := by
  simp only [Matcher.acceptToken, List.contains_eq_mem, Bool.or_eq_true, decide_eq_true_eq]
  by_cases hclosed : m.stopped = true ∨ m.compiled.vocabulary.size ≤ id
  · rw [if_pos hclosed]
    refine iff_of_false Bool.false_ne_true ?_
    rintro ⟨hopen, hlt, -⟩
    rcases hclosed with hclosed | hclosed
    · simp [hopen] at hclosed
    · omega
  · rw [if_neg hclosed]
    rw [not_or, Bool.not_eq_true, not_le] at hclosed
    rw [and_iff_right hclosed.1, and_iff_right hclosed.2]
    split_ifs with hstop hend hsilent
    · exact iff_of_true rfl hend
    · exact iff_of_false not_false hend
    · refine iff_of_false not_false ?_
      rintro ⟨hspecial, hnot, -⟩
      rcases hsilent with hsilent | hsilent
      · simp [hspecial] at hsilent
      · exact hnot hsilent
    · rw [not_or, Bool.not_eq_true] at hsilent
      rw [read_fst, and_iff_right hsilent.1, and_iff_right hsilent.2]

/-- What a matcher that follows a text accepts. -/
theorem At.acceptToken (h : At c w m) (id : Nat) : (m.acceptToken id).1 = true ↔
    m.stopped = false ∧ id < c.vocabulary.size ∧
      if id ∈ m.stopIds then m.mayEnd = true
      else c.vocabulary.isSpecial id = false ∧ id ∉ c.vocabulary.stopIds ∧
        Survives c m.ceiling w (c.vocabulary.bytesOf id) := by
  rw [acceptToken_iff, h.compiled, (h.advance _).1]

/-! ## Rows -/

/-- Whether a token that ends no text strands on the stack of a matcher. -/
def strands (m : Matcher) (id : Nat) : Bool :=
  match m.position with
  | .single _ _ => false
  | .stacked stack =>
    let v := m.compiled.vocabulary
    ! m.stopped && ! m.stopIds.contains id && ! v.isSpecial id && ! v.stopIds.contains id &&
      stack.strands m.compiled m.ceiling (v.bytesOf id)

theorem At.strands_iff (h : At c w m) (id : Nat) : m.strands id = true ↔
    m.stopped = false ∧ id ∉ m.stopIds ∧ c.vocabulary.isSpecial id = false ∧
      id ∉ c.vocabulary.stopIds ∧
        (levels c m.ceiling w).strands c m.ceiling (c.vocabulary.bytesOf id) = true := by
  obtain ⟨rfl, position⟩ := h
  simp [strands, position, and_assoc]

/-- After a stop token the row is empty. -/
theorem row_of_stopped (h : m.stopped = true) :
    m.row = Bitmask.zero (Bitmask.wordsFor m.compiled.vocabulary.size) := by
  simp [Matcher.row, overwrite, h]

/-- What a row of the right size held before does not matter. -/
theorem overwrite_fst {row : Bitmask} (h : row.size = Bitmask.wordsFor m.compiled.vocabulary.size) :
    (m.overwrite row).1 = m.row := by
  simp only [Matcher.row, overwrite, Bitmask.clear_eq_zero, h, Bitmask.size_zero]

/-- The row of a matcher that has not accepted a stop token. -/
theorem At.row_eq (h : At c w m) (hopen : m.stopped = false) :
    m.row = m.setStops (stackRow c m.ceiling (levels c m.ceiling w)
      (Bitmask.zero (Bitmask.wordsFor c.vocabulary.size))).1 := by
  obtain ⟨rfl, position⟩ := h
  have stack (places : List Nat) (row : Bitmask) :
      (tryTokens m.compiled m.ceiling (levels m.compiled m.ceiling w) places row).2 =
        levels m.compiled m.ceiling w :=
    tryTokens_stack (by simp) places row
  rw [row, overwrite, Bitmask.clear_zero, if_neg (by simp [hopen])]
  simp only [position, stackRow, stack]
  rw [← position]

/-- The row of a matcher that follows a text allows the tokens that the matcher accepts, and those
that strand. -/
theorem At.row_spec (hc : c.Masked) (h : At c w m) :
    m.row.size = Bitmask.wordsFor c.vocabulary.size ∧ ∀ id, m.row.allows id = true ↔
      id < c.vocabulary.size ∧ ((m.acceptToken id).1 = true ∨ m.strands id = true) := by
  cases hopen : m.stopped with
  | true =>
    have row : m.row = Bitmask.zero (Bitmask.wordsFor c.vocabulary.size) :=
      h.compiled ▸ row_of_stopped hopen
    refine ⟨by rw [row, Bitmask.size_zero], fun id => ?_⟩
    rw [row, Bitmask.allows_zero, h.acceptToken, h.strands_iff, hopen]
    simp
  | false =>
    set row := (stackRow c m.ceiling (levels c m.ceiling w)
      (Bitmask.zero (Bitmask.wordsFor c.vocabulary.size))).1 with hrow
    obtain ⟨size, allows⟩ : row.size = Bitmask.wordsFor c.vocabulary.size ∧ _ :=
      allows_stackRow hc w
    obtain ⟨size', allows'⟩ := allows_setStops m (h.compiled.symm ▸ size)
    rw [h.row_eq hopen, ← hrow]
    refine ⟨size'.trans size, fun id => ?_⟩
    rw [allows', allows, h.acceptToken, h.strands_iff, hopen, h.compiled, and_iff_right rfl,
      and_iff_right rfl]
    by_cases hid : id ∈ c.vocabulary.sortedIds
    · obtain ⟨hspecial, hknown⟩ := (hc.vocabulary.mem_sortedIds id).1 hid
      have hlt := hc.vocabulary.lt_size hid
      rw [Stack.survives_or_accepted_iff hc.regular (hc.vocabulary.bytes_ne_nil id hid)]
      by_cases hstop : id ∈ m.stopIds <;> simp [hid, hspecial, hknown, hlt, hstop]
    · have hsilent := mt (hc.vocabulary.mem_sortedIds id).2 hid
      by_cases hstop : id ∈ m.stopIds
      · by_cases hlt : id < c.vocabulary.size <;> simp [hid, hstop, hlt]
      · refine iff_of_false (by simp [hid, hstop]) ?_
        rw [if_neg hstop]
        rintro ⟨-, ⟨-, hspecial, hknown, -⟩ | ⟨-, hspecial, hknown, -⟩⟩ <;>
          exact hsilent ⟨hspecial, hknown⟩

/-- A matcher writes its row where the buffer has room for it, whatever the words held before. -/
theorem fill_fst (m : Matcher) (buffer : Bitmask) (batch : Nat) : (m.fill buffer batch).1 =
    (Bitmask.rowStart? buffer.size m.compiled.vocabulary.size batch).map (buffer.write · m.row) := by
  simp only [Matcher.fill]
  split
  · rename_i hnone
    rw [hnone, Option.map_none]
  · rename_i start hstart
    have room := Bitmask.le_of_rowStart? hstart
    rw [hstart, Option.map_some, overwrite_fst (Bitmask.size_rowAt room)]

/-- What a matcher writes into a buffer that has room is its row. -/
theorem fill_of_room (size : m.row.size = Bitmask.wordsFor m.compiled.vocabulary.size)
    {buffer : Bitmask} {batch start : Nat}
    (hstart : Bitmask.rowStart? buffer.size m.compiled.vocabulary.size batch = some start) :
    ∃ buffer', (m.fill buffer batch).1 = some buffer' ∧
      buffer'.rowAt start (Bitmask.wordsFor m.compiled.vocabulary.size) = m.row := by
  refine ⟨buffer.write start m.row, by rw [fill_fst, hstart, Option.map_some], ?_⟩
  rw [← size]
  exact Bitmask.rowAt_write (size ▸ Bitmask.le_of_rowStart? hstart)

/-- What a matcher that follows a text writes into a buffer that has room is its row. -/
theorem At.fill (hc : c.Masked) (h : At c w m) {buffer : Bitmask} {batch start : Nat}
    (hstart : Bitmask.rowStart? buffer.size c.vocabulary.size batch = some start) :
    ∃ buffer', (m.fill buffer batch).1 = some buffer' ∧
      buffer'.rowAt start (Bitmask.wordsFor c.vocabulary.size) = m.row := by
  obtain ⟨size, -⟩ := h.row_spec hc
  obtain ⟨rfl, -⟩ := h
  exact fill_of_room size hstart

/-! ## Samples -/

/-- What can be told of a token after calls. -/
structure Outlook where
  /-- The number of tokens. -/
  size : Nat
  isSingle : Bool
  accepted : Bool
  strands : Bool
  deriving DecidableEq

/-- What can be told of a token after calls, if a grammar compiles against the given tokens. -/
def outlook (g : Grammar) (tokens : List String) (calls : List Call) (id : Nat) :
    Option Outlook := do
  let v ← (Vocabulary.ofTokens tokens .raw none .unset false).toOption
  let c ← (Compiled.compile g v).toOption
  let m := ((new c .default 10).run ⟨[], 0⟩ calls).1
  return ⟨v.size, c.isSingle, (m.acceptToken id).1, m.strands id⟩

theorem outlook_eq_some {g : Grammar} {tokens : List String} {calls : List Call} {id : Nat}
    {x : Outlook} (h : outlook g tokens calls id = some x) :
    ∃ v c, Vocabulary.ofTokens tokens .raw none .unset false = .ok v ∧ Compiled.compile g v = .ok c ∧
      let m := ((new c .default 10).run ⟨[], 0⟩ calls).1
      v.size = x.size ∧ c.isSingle = x.isSingle ∧ (m.acceptToken id).1 = x.accepted ∧
        m.strands id = x.strands := by
  obtain ⟨v, hv, h⟩ := Option.bind_eq_some_iff.1 h
  obtain ⟨c, hc, h⟩ := Option.bind_eq_some_iff.1 h
  obtain rfl := Option.some.inj h
  exact ⟨v, c, Except.toOption_eq_some.1 hv, Except.toOption_eq_some.1 hc, rfl, rfl, rfl, rfl⟩

/-- `root ::= "(" root ")" | "x"`. -/
def nestedX : Grammar where
  rules := #[⟨"root", 5, none⟩]
  exprs := #[.leaf (.literal [40]), .leaf (.reference 0), .leaf (.literal [41]), .sequence [0, 1, 2],
    .leaf (.literal [120]), .choice [3, 4]]
  root := 0

theorem valid_nestedX : nestedX.Valid := by decide

/-- `root ::= a b`, `a ::= "x" | "(" a ")"` and `b ::= b`, so that nothing goes on after `a`. -/
def endless : Grammar where
  rules := #[⟨"root", 2, none⟩, ⟨"a", 8, none⟩, ⟨"b", 9, none⟩]
  exprs := #[.leaf (.reference 1), .leaf (.reference 2), .sequence [0, 1], .leaf (.literal [120]),
    .leaf (.literal [40]), .leaf (.reference 1), .leaf (.literal [41]), .sequence [4, 5, 6],
    .choice [3, 7], .leaf (.reference 2)]
  root := 0

theorem valid_endless : endless.Valid := by decide

/-! ## The tokens that are allowed -/

section

variable {g : Grammar} {v : Vocabulary} {c : Compiled} {tokens : List String} {kind : Vocabulary.Kind}
  {size : Option Nat} {stop : Setting (List Nat)} {addsSpace : Bool}

/-- Whatever was asked of a matcher that follows a stack, it follows a text. -/
theorem exists_at (hg : g.Valid)
    (hv : Vocabulary.ofTokens tokens kind size stop addsSpace = .ok v)
    (hc : Compiled.compile g v = .ok c) (hcalls : c.isSingle = false) (o : Options)
    (usualDepth : Nat) (calls : List Call) :
    c.Masked ∧ c.vocabulary = v ∧ ∃ w, At c w ((new c o usualDepth).run ⟨[], 0⟩ calls).1 :=
  ⟨Compiled.masked_of_compile hg (Vocabulary.regular_of_ofTokens hv) hc,
    (Compiled.compile_spec hg hc).2.2.2, exists_at_run hcalls o usualDepth calls⟩

/-- Whatever was asked of a matcher that follows a stack, the row that it writes allows every token
that it would accept. -/
theorem allows_of_acceptToken (hg : g.Valid)
    (hv : Vocabulary.ofTokens tokens kind size stop addsSpace = .ok v)
    (hc : Compiled.compile g v = .ok c) (hcalls : c.isSingle = false) (o : Options)
    (usualDepth : Nat) (calls : List Call) {buffer : Bitmask} {batch start : Nat}
    (hstart : Bitmask.rowStart? buffer.size v.size batch = some start) :
    let m := ((new c o usualDepth).run ⟨[], 0⟩ calls).1
    ∃ buffer', (m.fill buffer batch).1 = some buffer' ∧ ∀ id, (m.acceptToken id).1 = true →
      (buffer'.rowAt start (Bitmask.wordsFor v.size)).allows id = true := by
  intro m
  obtain ⟨masked, rfl, w, h⟩ := exists_at hg hv hc hcalls o usualDepth calls
  obtain ⟨buffer', hfill, hrow⟩ := h.fill masked hstart
  refine ⟨buffer', hfill, fun id haccept => ?_⟩
  rw [hrow]
  exact ((h.row_spec masked).2 id).2 ⟨((h.acceptToken id).1 haccept).2.1, Or.inl haccept⟩

/-- After an open parenthesis the row allows a token that goes on beyond the nested rule. -/
theorem nestedX_allows : ∃ v c buffer',
    Vocabulary.ofTokens ["(", "x", ")", "x)"] .raw none .unset false = .ok v ∧
    Compiled.compile nestedX v = .ok c ∧
    (((new c .default 10).run ⟨[], 0⟩ [.accept (.token 0)]).1.fill #[0] 0).1 = some buffer' ∧
    (buffer'.rowAt 0 1).allows 3 = true := by
  have look : outlook nestedX ["(", "x", ")", "x)"] [.accept (.token 0)] 3 =
      some ⟨4, false, true, false⟩ := by decide +kernel
  obtain ⟨v, c, hv, hc, size, single, accepted, -⟩ := outlook_eq_some look
  have hstart : Bitmask.rowStart? (#[0] : Bitmask).size v.size 0 = some 0 := by
    rw [size]
    decide
  obtain ⟨buffer', hfill, allows⟩ := allows_of_acceptToken valid_nestedX hv hc single .default 10
    [.accept (.token 0)] hstart
  rw [size] at allows
  exact ⟨v, c, buffer', hv, hc, hfill, allows 3 accepted⟩

/-- Whatever was asked of a matcher that follows a stack, the row that it writes allows the tokens that
it would accept, and besides just those that strand: the last byte of such a token ends the rule of
a current state, and nothing can go on after the rule. -/
theorem allows_iff_acceptToken_or_strands (hg : g.Valid)
    (hv : Vocabulary.ofTokens tokens kind size stop addsSpace = .ok v)
    (hc : Compiled.compile g v = .ok c) (hcalls : c.isSingle = false) (o : Options)
    (usualDepth : Nat) (calls : List Call) {buffer : Bitmask} {batch start : Nat}
    (hstart : Bitmask.rowStart? buffer.size v.size batch = some start) :
    let m := ((new c o usualDepth).run ⟨[], 0⟩ calls).1
    ∃ buffer', (m.fill buffer batch).1 = some buffer' ∧ ∀ id,
      (buffer'.rowAt start (Bitmask.wordsFor v.size)).allows id = true ↔
        id < v.size ∧ ((m.acceptToken id).1 = true ∨ m.strands id = true) := by
  intro m
  obtain ⟨masked, rfl, w, h⟩ := exists_at hg hv hc hcalls o usualDepth calls
  obtain ⟨buffer', hfill, hrow⟩ := h.fill masked hstart
  refine ⟨buffer', hfill, fun id => ?_⟩
  rw [hrow]
  exact (h.row_spec masked).2 id

end

/-- A token that ends a rule after which nothing goes on is allowed, but not accepted. -/
theorem endless_allows : ∃ v c buffer', Vocabulary.ofTokens ["x"] .raw none .unset false = .ok v ∧
    Compiled.compile endless v = .ok c ∧ ((new c .default 10).acceptToken 0).1 = false ∧
    ((new c .default 10).fill #[0] 0).1 = some buffer' ∧ (buffer'.rowAt 0 1).allows 0 = true := by
  have look : outlook endless ["x"] [] 0 = some ⟨1, false, false, true⟩ := by decide +kernel
  obtain ⟨v, c, hv, hc, size, single, rejected, strands⟩ := outlook_eq_some look
  have hstart : Bitmask.rowStart? (#[0] : Bitmask).size v.size 0 = some 0 := by
    rw [size]
    decide
  obtain ⟨buffer', hfill, allows⟩ := allows_iff_acceptToken_or_strands valid_endless hv hc single
    .default 10 [] hstart
  rw [size] at allows
  exact ⟨v, c, buffer', hv, hc, rejected, hfill, (allows 0).2 ⟨by decide, Or.inr strands⟩⟩

end Matcher

end ConstrainedDecoding
