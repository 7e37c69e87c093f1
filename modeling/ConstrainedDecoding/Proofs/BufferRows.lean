import ConstrainedDecoding.Proofs.SingleTable

/-!
# Rows of buffers

What a matcher writes over a row of a buffer is its own row, whatever the words held before; the other
words keep what they hold. A buffer that does not have the row is refused.
-/
namespace ConstrainedDecoding.Matcher

variable {m : Matcher}

/-- In a buffer that has the row just its words are written over. -/
theorem fill_eq_some {buffer buffer' : Bitmask} {batch : Nat}
    (h : (m.fill buffer batch).1 = some buffer') :
    let k := Bitmask.wordsFor m.compiled.vocabulary.size
    batch * k + k ≤ buffer.size ∧ buffer' = buffer.write (batch * k) m.row := by
  intro k
  rw [fill_fst] at h
  obtain ⟨start, hstart, rfl⟩ := Option.map_eq_some_iff.1 h
  obtain ⟨rfl, -, -⟩ := Bitmask.rowStart?_eq_some.1 hstart
  exact ⟨Bitmask.le_of_rowStart? hstart, rfl⟩

/-- After an accepted stop token the row is empty. -/
theorem row_of_acceptToken {id : Nat} (hid : id ∈ m.stopIds) (h : (m.acceptToken id).1 = true) :
    (m.acceptToken id).2.row = Bitmask.zero (Bitmask.wordsFor m.compiled.vocabulary.size) := by
  obtain ⟨hopen, hlt, hend⟩ := (acceptToken_iff m id).1 h
  rw [if_pos hid] at hend
  have token : m.acceptToken id = (true, { m with stopped := true }.record .stop) := by
    simp [acceptToken, hopen, hlt, hid, hend]
  rw [token, (agree_record { m with stopped := true } .stop).row]
  exact row_of_stopped rfl

section

variable {g : Grammar} {v : Vocabulary} {c : Compiled} {tokens : List String} {kind : Vocabulary.Kind}
  {size : Option Nat} {stop : Setting (List Nat)} {addsSpace : Bool}

/-- Whatever was asked of a matcher, its row has the words for all tokens, and allows none beyond them. -/
theorem row_inside (hg : g.Valid) (hv : Vocabulary.ofTokens tokens kind size stop addsSpace = .ok v)
    (hc : Compiled.compile g v = .ok c) (o : Options) (usualDepth : Nat) (calls : List Call) :
    let m := ((new c o usualDepth).run ⟨[], 0⟩ calls).1
    m.compiled.vocabulary = v ∧ m.row.size = Bitmask.wordsFor v.size ∧
      ∀ id, m.row.allows id = true → id < v.size := by
  intro m
  have masked := Compiled.masked_of_compile hg (Vocabulary.regular_of_ofTokens hv) hc
  obtain rfl : c.vocabulary = v := (Compiled.compile_spec hg hc).2.2.2
  cases hsingle : c.isSingle with
  | true =>
    obtain ⟨s, h⟩ : ∃ s, OnTable c s m := exists_onTable_run
      (masked.regular.table _ masked.regular.root_lt) hsingle o usualDepth calls
    obtain ⟨rowSize, allows⟩ := h.row_spec masked
    refine ⟨congrArg _ h.compiled, rowSize, fun id hid => ?_⟩
    exact h.compiled ▸ ((acceptToken_iff m id).1 ((allows id).1 hid).1).2.1
  | false =>
    obtain ⟨w, h⟩ : ∃ w, At c w m := exists_at_run hsingle o usualDepth calls
    obtain ⟨rowSize, allows⟩ := h.row_spec masked
    exact ⟨congrArg _ h.compiled, rowSize, fun id hid => ((allows id).1 hid).1⟩

/-- Whatever was asked of a matcher, it refuses a buffer just if the row does not lie in it or has no
words. Otherwise it writes its own row, which the words of the buffer have no part in, and leaves all
other words as they are. The row allows no id beyond those of the tokens; after a stop token it allows
nothing. -/
theorem fill_overwrites_row (hg : g.Valid)
    (hv : Vocabulary.ofTokens tokens kind size stop addsSpace = .ok v)
    (hc : Compiled.compile g v = .ok c) (o : Options) (usualDepth : Nat) (calls : List Call)
    {buffer : Bitmask} (hbuffer : buffer.size ≤ Bitmask.largestPlace) (batch : Nat) :
    let m := ((new c o usualDepth).run ⟨[], 0⟩ calls).1
    let k := Bitmask.wordsFor v.size
    ((m.fill buffer batch).1 = none ↔ k = 0 ∨ buffer.size < batch * k + k) ∧
    (∀ buffer', (m.fill buffer batch).1 = some buffer' → buffer'.size = buffer.size ∧
      (∀ i, i < batch * k ∨ batch * k + k ≤ i → buffer'[i]? = buffer[i]?) ∧
      buffer'.rowAt (batch * k) k = m.row) ∧
    m.row.size = k ∧ (∀ id, v.size ≤ id → m.row.allows id = false) ∧
    (m.stopped = true → m.row = Bitmask.zero k) ∧
    ∀ id ∈ m.stopIds, (m.acceptToken id).1 = true → (m.acceptToken id).2.row = Bitmask.zero k := by
  intro m k
  obtain ⟨vocabulary, rowSize, inside⟩ := row_inside hg hv hc o usualDepth calls
  have words : Bitmask.wordsFor m.compiled.vocabulary.size = k := by rw [vocabulary]
  refine ⟨?_, fun buffer' hfill => ?_, rowSize, fun id hid => ?_,
    fun hstopped => words ▸ row_of_stopped hstopped,
    fun id hid haccept => words ▸ row_of_acceptToken hid haccept⟩
  · rw [fill_fst, Option.map_eq_none_iff, vocabulary]
    exact Bitmask.rowStart?_eq_none hbuffer
  · obtain ⟨room, rfl⟩ := fill_eq_some hfill
    rw [words] at room ⊢
    refine ⟨Bitmask.size_write .., fun i hi => Bitmask.getElem?_write (by rwa [rowSize]), ?_⟩
    have written : (buffer.write (batch * k) m.row).rowAt (batch * k) m.row.size = m.row :=
      Bitmask.rowAt_write (by rwa [rowSize])
    rwa [rowSize] at written
  · exact Bool.eq_false_iff.2 fun allowed => absurd (inside id allowed) (not_lt.2 hid)

end

/-- A buffer of three rows gets its middle row, and has no row at the largest place. -/
theorem nestedX_fills : ∃ v c buffer',
    Vocabulary.ofTokens ["(", "x", ")", "x)"] .raw none .unset false = .ok v ∧
    Compiled.compile nestedX v = .ok c ∧
    let m := ((new c .default 10).run ⟨[], 0⟩ [.accept (.token 0)]).1
    (m.fill #[7, 8, 9] 1).1 = some buffer' ∧ buffer'[0]? = some 7 ∧ buffer'[2]? = some 9 ∧
      buffer'.rowAt 1 1 = m.row ∧ (m.fill #[7, 8, 9] Bitmask.largestPlace).1 = none := by
  have look : outlook nestedX ["(", "x", ")", "x)"] [.accept (.token 0)] 3 =
      some ⟨4, false, true, false⟩ := by decide +kernel
  obtain ⟨v, c, hv, hc, size, -⟩ := outlook_eq_some look
  have words : Bitmask.wordsFor v.size = 1 := by rw [size]; decide
  have room : (#[7, 8, 9] : Bitmask).size ≤ Bitmask.largestPlace := by decide
  have spec := fill_overwrites_row valid_nestedX hv hc .default 10 [.accept (.token 0)] room
  simp only [words] at spec
  have filled := mt (spec 1).1.1 (by decide)
  obtain ⟨buffer', hfill⟩ := Option.ne_none_iff_exists'.1 filled
  obtain ⟨-, kept, hrow⟩ := (spec 1).2.1 buffer' hfill
  exact ⟨v, c, buffer', hv, hc, hfill, kept 0 (by decide), kept 2 (by decide), hrow,
    (spec Bitmask.largestPlace).1.2 (by decide)⟩

end ConstrainedDecoding.Matcher
