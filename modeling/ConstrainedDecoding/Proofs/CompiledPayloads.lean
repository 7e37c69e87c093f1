import ConstrainedDecoding.Proofs.GrammarPayloads
import ConstrainedDecoding.Proofs.Items
import ConstrainedDecoding.Proofs.Renumbering
import ConstrainedDecoding.Proofs.VocabularyPayloads

/-!
# Compiled grammars that are read back

The tables of a compiled grammar are made anew from its grammar, and its masks pass the checks against the
vocabulary. So what is read back has the same mask for every state, and the same serialized form.
-/
namespace ConstrainedDecoding

open Json (Value)
open Payload

/-! ## Masks -/

namespace TokenMask

variable {v : Vocabulary} {m : TokenMask}

/-- The accepted tokens are tokens of a vocabulary, and the uncertain ones are places of it, ascending. -/
structure Suits (v : Vocabulary) (m : TokenMask) : Prop where
  accepted : match m.accepted with
    | .ids ids => ∀ id ∈ ids, id < v.size
    | .bits bits => bits.size = Bitmask.wordsFor v.size
  ascending : m.uncertain.Pairwise (· < ·)
  uncertain : ∀ j ∈ m.uncertain, j < v.sortedIds.size

theorem isAscending_of_pairwise : ∀ {l : List Nat}, l.Pairwise (· < ·) → isAscending l = true
  | [], _ | [_], _ => rfl
  | a :: b :: rest, h => by
    obtain ⟨ha, hrest⟩ := List.pairwise_cons.1 h
    simp [isAscending, ha b List.mem_cons_self, isAscending_of_pairwise hrest]

/-- A mask that suits a vocabulary passes the check. -/
theorem Suits.check (h : m.Suits v) : m.check v = .ok () := by
  obtain ⟨accepted, uncertain⟩ := m
  have order : (isAscending uncertain && uncertain.all (· < v.sortedIds.size)) = true := by
    simp only [isAscending_of_pairwise h.ascending, Bool.true_and, List.all_eq_true, decide_eq_true_eq]
    exact h.uncertain
  cases accepted with
  | ids ids =>
    have inside : ids.find? (v.size ≤ ·) = none :=
      List.find?_eq_none.2 fun id hid => by simpa using h.accepted id hid
    simp [TokenMask.check, inside, order, pure, Except.pure]
  | bits bits =>
    have size : bits.size = Bitmask.wordsFor v.size := h.accepted
    simp [TokenMask.check, size, order, pure, Except.pure]

theorem suits_empty (v : Vocabulary) : empty.Suits v :=
  ⟨fun _ hid => absurd hid List.not_mem_nil, .nil, nofun⟩

/-- Either form of a mask is made of tokens and places that suit a vocabulary. -/
theorem suits_ofClasses {accepted uncertain : List Nat} (haccepted : ∀ id ∈ accepted, id < v.size)
    (hascending : uncertain.Pairwise (· < ·)) (huncertain : ∀ j ∈ uncertain, j < v.sortedIds.size) :
    (ofClasses v.size accepted uncertain).Suits v := by
  unfold ofClasses
  dsimp only
  split
  · exact ⟨fun id hid => haccepted id (List.mem_mergeSort.1 hid), hascending, huncertain⟩
  · exact ⟨(Bitmask.size_foldl_allow _ _).trans (Bitmask.size_zero _), hascending, huncertain⟩

theorem suits_ofState (hv : v.Regular) (t : Table) (s : StateId) : (ofState t v s).Suits v := by
  obtain ⟨accepted, uncertain⟩ := classes_spec hv t s 0
  have ascending : (classes t s v 0).2.Pairwise (· < ·) := by
    rw [classes_eq hv]
    exact pairwise_places
  refine suits_ofClasses (fun id hid => ?_) ascending fun j hj => ?_
  · obtain ⟨j, -, hj, -⟩ := (accepted id).1 hid
    exact hv.lt_size (Array.mem_of_getElem? hj)
  · obtain ⟨-, id, hid, -⟩ := (uncertain j).1 hj
    exact (Array.getElem?_eq_some_iff.1 hid).1

theorem suits_maskOf (hv : v.Regular) (t : Table) (s : StateId) : (MaskPool.maskOf v t s).Suits v := by
  unfold MaskPool.maskOf
  split
  · exact suits_ofState hv t s
  · exact suits_empty v

/-! ## Masks as parts of payloads -/

/-- The numbers of a mask fit 32 bits. -/
structure Fits32 (m : TokenMask) : Prop where
  accepted : match m.accepted with
    | .ids ids => ∀ id ∈ ids, Payload.Fits32 id
    | .bits _ => True
  uncertain : ∀ j ∈ m.uncertain, Payload.Fits32 j

theorem Suits.fits32 (h : m.Suits v) (hsize : Payload.Fits32 v.size) (hsorted : v.sortedIds.size ≤ v.size) :
    m.Fits32 := by
  refine ⟨?_, fun j hj => lt_trans (lt_of_lt_of_le (h.uncertain j hj) hsorted) hsize⟩
  obtain ⟨accepted, uncertain⟩ := m
  cases accepted with
  | ids ids => exact fun id hid => lt_trans (h.accepted id hid) hsize
  | bits bits => exact trivial

end TokenMask

theorem TokenSet.read?_ids {v : Value} {ids : List Nat} (h : list? word? v = some ids) :
    TokenSet.read? (.object [("ids", v)]) = some (.ids ids) := by
  simp [TokenSet.read?, h]

theorem TokenSet.read?_bits {v : Value} {bits : Bitmask}
    (h : list? word? v = some (bits.toList.map UInt32.toNat)) :
    TokenSet.read? (.object [("bits", v)]) = some (.bits bits) := by
  have words : UInt32.ofNat ∘ UInt32.toNat = id := funext fun w => UInt32.ofNat_toNat
  simp [TokenSet.read?, h, words]

theorem TokenMask.read?_object {accepted uncertain : Value} {a : TokenSet} {u : List Nat}
    (ha : TokenSet.read? accepted = some a) (hu : list? word? uncertain = some u) :
    TokenMask.read? (.object [("accepted", accepted), ("uncertain", uncertain)]) = some ⟨a, u⟩ := by
  simp [TokenMask.read?, parts?, Value.lookup, required?, ha, hu]

theorem list?_nat {ns : List Nat} (h : ∀ n ∈ ns, Payload.Fits32 n) :
    list? word? (.array (ns.map .nat)) = some ns :=
  list?_map fun n hn => word?_nat (h n hn)

theorem kept_nats {depth : Nat} {ns : List Nat} (h : ∀ n ∈ ns, Payload.Fits32 n) :
    Value.Kept (depth + 1) (.array (ns.map .nat)) :=
  kept_array fun n hn => kept_word (h n hn)

/-- A mask whose numbers fit 32 bits is read back. -/
theorem TokenMask.read?_toJson {m : TokenMask} (h : m.Fits32) : TokenMask.read? m.toJson = some m := by
  obtain ⟨accepted, uncertain⟩ := m
  have places : list? word? (.array (uncertain.map .nat)) = some uncertain := list?_nat h.uncertain
  cases accepted with
  | ids ids => exact read?_object (TokenSet.read?_ids (list?_nat h.accepted)) places
  | bits bits =>
    have words : list? word? (.array (bits.toList.map fun w => .nat w.toNat)) =
        some (bits.toList.map UInt32.toNat) :=
      Option.mapM_map_eq_some fun w _ => word?_nat (fits32_toNat w)
    exact read?_object (TokenSet.read?_bits words) places

theorem TokenMask.Fits32.kept_toJson {m : TokenMask} (h : m.Fits32) {depth : Nat} : m.toJson.Kept (depth + 3) := by
  obtain ⟨accepted, uncertain⟩ := m
  have places : Value.Kept (depth + 2) (.array (uncertain.map .nat)) := kept_nats h.uncertain
  cases accepted with
  | ids ids =>
    have inner : Value.Kept (depth + 2) (.object [("ids", .array (ids.map .nat))]) :=
      .object (by simp) (by simpa using kept_nats h.accepted)
    exact .object (by simp) (by simpa using ⟨inner, places⟩)
  | bits bits =>
    have words : Value.Kept (depth + 1) (.array (bits.toList.map fun w => .nat w.toNat)) :=
      kept_array fun w _ => kept_word (fits32_toNat w)
    have inner : Value.Kept (depth + 2) (.object [("bits", .array (bits.toList.map fun w => .nat w.toNat))]) :=
      .object (by simp) (by simpa using words)
    exact .object (by simp) (by simpa using ⟨inner, places⟩)

/-! ## Sizes -/

theorem Vocabulary.size_sortedIds_le {tokens : List String} {kind : Kind} {size : Option Nat}
    {stop : Setting (List Nat)} {addsSpace : Bool} {v : Vocabulary}
    (h : ofTokens tokens kind size stop addsSpace = .ok v) : v.sortedIds.size ≤ v.size := by
  obtain ⟨-, decoded, -, stopIds, -, rfl⟩ := ofTokens_eq_ok.1 h
  simpa [ofBytes, idsOutside] using
    List.length_filter_le (fun i => ! (marksOf _ _).getD i false) (List.range (size.getD tokens.length))

/-- The states of all tables can be counted with 32 bits. -/
theorem Grammar.fits32_sum_sizes {g : Grammar} (hg : g.Valid) {ts : Array Table} (h : g.tables = .ok ts) :
    Payload.Fits32 (ts.toList.map Table.size).sum := by
  obtain ⟨hsize, htables⟩ := tables_spec hg h
  have rules : ts.size < stateLimit := by
    unfold tables at h
    split at h
    · cases h
    · omega
  have each : ∀ n ∈ ts.toList.map Table.size, n ≤ stateLimit := by
    intro n hn
    obtain ⟨t, ht, rfl⟩ := List.mem_map.1 hn
    obtain ⟨r, hr⟩ := List.getElem?_of_mem ht
    exact (htables r t (by simpa using hr)).1.size_lt.le
  have sum := List.sum_le_card_nsmul _ _ each
  rw [List.length_map, Array.length_toList, smul_eq_mul] at sum
  exact lt_of_le_of_lt (sum.trans (Nat.mul_le_mul_right _ rules.le)) (by decide)

namespace MaskPool

variable {v : Vocabulary}

/-- The pool has a place for each state of each table. -/
theorem sizes_ofTables (v : Vocabulary) (tables : Array Table) :
    tables.toList.map Table.size = (ofTables v tables).places.toList.map Array.size := by
  refine (map_eq_of_forall₂ ((stands_ofTables v tables).imp fun t places stands => ?_)).symm
  simpa using stands.length_eq.symm

theorem length_flatPlaces (p : MaskPool) : p.flatPlaces.length = (p.places.toList.map Array.size).sum := by
  simp [flatPlaces, List.length_flatMap]

/-- Each place holds the mask of a state. -/
theorem exists_maskOf_of_mem_flatPlaces (v : Vocabulary) (tables : Array Table) {i : Nat}
    (hi : i ∈ (ofTables v tables).flatPlaces) : ∃ t s, (ofTables v tables).masks[i]? = some (maskOf v t s) := by
  obtain ⟨places, hplaces, hi⟩ := List.mem_flatMap.1 hi
  obtain ⟨t, -, stands⟩ := (exists_of_forall₂ (stands_ofTables v tables)).2 places hplaces
  obtain ⟨s, -, hs⟩ := (exists_of_forall₂ stands).2 i hi
  exact ⟨t, s, hs⟩

theorem suits_of_mem_flatPlaces (hv : v.Regular) (tables : Array Table) :
    ∀ i ∈ (ofTables v tables).flatPlaces, ((ofTables v tables).masks.getD i .empty).Suits v := by
  intro i hi
  obtain ⟨t, s, hs⟩ := exists_maskOf_of_mem_flatPlaces v tables hi
  rw [Array.getD_eq_getD_getElem?, hs, Option.getD_some]
  exact TokenMask.suits_maskOf hv t s

end MaskPool

/-! ## Compiled grammars -/

namespace Compiled

theorem Record.read?_object {version grammar fingerprint masks places : Value} {text : String} {d : Nat}
    {ms : List TokenMask} {ps : List Nat} (hgrammar : string? grammar = some text)
    (hfingerprint : size? fingerprint = some d) (hmasks : list? TokenMask.read? masks = some ms) (hplaces : list? word? places = some ps) :
    Record.read? (.object [("version", version), ("grammar", grammar), ("tokenizer_fingerprint", fingerprint),
      ("masks", masks), ("state_masks", places)]) = some ⟨text, d, ms, ps⟩ := by
  have grammar : required? string? (some grammar) = some text := hgrammar
  have fingerprint : required? size? (some fingerprint) = some d := hfingerprint
  have masks : required? (list? TokenMask.read?) (some masks) = some ms := hmasks
  have places : required? (list? word?) (some places) = some ps := hplaces
  simp [Record.read?, Value.member?, Value.lookup, grammar, fingerprint, masks, places]

theorem Record.kept_object {depth : Nat} {version grammar fingerprint masks places : Value}
    (hversion : version.Kept depth) (hgrammar : grammar.Kept depth) (hfingerprint : fingerprint.Kept depth)
    (hmasks : masks.Kept depth) (hplaces : places.Kept depth) :
    Value.Kept (depth + 1) (.object [("version", version), ("grammar", grammar), ("tokenizer_fingerprint", fingerprint),
      ("masks", masks), ("state_masks", places)]) :=
  .object (by simp) (by simp [hversion, hgrammar, hfingerprint, hmasks, hplaces])

/-- The numbers of the masks in use and of the states fit 32 bits. -/
structure Fits32 (c : Compiled) : Prop where
  masks : ∀ m ∈ c.pool.inOrderOfUse.2, m.Fits32
  places : ∀ k ∈ c.pool.inOrderOfUse.1, Payload.Fits32 k

/-- The text of a compiled grammar is read as its parts. -/
theorem Fits32.read {c : Compiled} (h : c.Fits32) (hash : Vocabulary.Traits → UInt64) :
    ∃ payload, Payload.parse (c.serialize hash) = .ok payload ∧
      Record.read? payload = some ⟨c.grammar.serialize, (c.vocabulary.fingerprint hash).toNat, c.pool.inOrderOfUse.2,
        c.pool.inOrderOfUse.1⟩ := by
  have fingerprint : (c.vocabulary.fingerprint hash).toNat < 0x10000000000000000 :=
    (c.vocabulary.fingerprint hash).toNat_lt
  have masks : Value.Kept 126 (.array (c.pool.inOrderOfUse.2.map TokenMask.toJson)) :=
    kept_array fun m hm => (h.masks m hm).kept_toJson
  have places : Value.Kept 126 (.array (c.pool.inOrderOfUse.1.map .nat)) := kept_nats h.places
  have kept : (c.toJson hash).Kept Json.depthLimit :=
    Record.kept_object .string .string (Value.kept_nat fingerprint) masks places
  exact ⟨c.toJson hash, parse_text kept rfl, Record.read?_object rfl (size?_nat fingerprint)
    (list?_map fun m hm => TokenMask.read?_toJson (h.masks m hm)) (list?_nat h.places)⟩

theorem forIn_check {v : Vocabulary} {ms : List TokenMask} (h : ∀ m ∈ ms, m.Suits v) :
    (forIn ms PUnit.unit fun m _ => do
      (m.check v).mapError Error.payload
      pure (.yield PUnit.unit)) = (Except.ok PUnit.unit : Except Error PUnit) := by
  induction ms with
  | nil => rfl
  | cons m ms ih =>
    obtain ⟨hm, hms⟩ := List.forall_mem_cons.1 h
    rw [List.forIn_cons, hm.check]
    exact ih hms

section

variable {hash : Vocabulary.Traits → UInt64} {g : Grammar} {v : Vocabulary} {c : Compiled}

/-- What compiling makes: the tables of the lowered grammar, and the masks of their states. -/
theorem compile_eq_ok : compile g v = .ok c ↔ ∃ l ts, g.lowered = .ok l ∧ l.tables = .ok ts ∧
    c = ⟨g, l, v, ts, .ofTables v ts⟩ := by
  simp only [compile, Except.bind_eq_ok, pure, Except.pure, Except.ok.injEq, @eq_comm _ _ c]
  constructor
  · rintro ⟨l, hl, ts, hts, h⟩
    exact ⟨l, ts, hl, hts, h⟩
  · rintro ⟨l, ts, hl, hts, h⟩
    exact ⟨l, hl, ts, hts, h⟩

/-- Parts that pass all checks are read as a compiled grammar. -/
theorem deserialize_of_record {text : String} {payload : Value} {record : Record} {l : Grammar} {ts : Array Table}
    (hpayload : Payload.parse text = .ok payload) (hrecord : Record.read? payload = some record)
    (hfingerprint : record.fingerprint = (v.fingerprint hash).toNat)
    (hgrammar : Grammar.deserialize record.grammar = .ok g) (hl : g.lowered = .ok l) (hts : l.tables = .ok ts)
    (hcount : record.places.length = (ts.toList.map Table.size).sum) (hmasks : ∀ m ∈ record.masks, m.Suits v)
    (hplaces : ∀ k ∈ record.places, k < record.masks.length) :
    deserialize hash text v = .ok ⟨g, l, v, ts, ⟨record.masks.toArray,
      ((cut (ts.toList.map Table.size) record.places).map List.toArray).toArray⟩⟩ := by
  have count : record.places.length = (ts.toList.map Table.size).foldl (· + ·) 0 := by
    rw [hcount, List.sum_eq_foldl]
  have inside : record.places.find? (record.masks.length ≤ ·) = none :=
    List.find?_eq_none.2 fun k hk => by simpa using hplaces k hk
  have checked := forIn_check hmasks
  have grammar : (Grammar.deserialize record.grammar).mapError innerError = .ok g :=
    Except.mapError_eq_ok.2 hgrammar
  have lowered : (g.lowered.mapError fun f => Error.payload (.lowering f)) = .ok l :=
    Except.mapError_eq_ok.2 hl
  have tables : (l.tables.mapError fun f => Error.payload (.lowering f)) = .ok ts :=
    Except.mapError_eq_ok.2 hts
  have ok_bind {α β : Type} (a : α) (f : α → Except Error β) : (Except.ok a >>= f) = f a := rfl
  simp only [deserialize, hpayload, ok_bind]
  rw [hrecord]
  simp only [hfingerprint, ne_eq, not_true_eq_false, if_false, grammar, lowered, tables, count, checked, inside,
    ok_bind]
  rfl

/-- A compiled grammar with its masks in the order of their use. -/
def inOrder (c : Compiled) : Compiled :=
  { c with pool := c.pool.renumbered (c.tables.toList.map Table.size) }

/-- A grammar with any masks that suit the vocabulary, one for each state, is read back with its masks in the
order of their use. -/
theorem deserialize_serialize_pool {l : Grammar} {ts : Array Table} {p : MaskPool} (hg : g.Valid) (hfits : g.Fits32)
    (hsize : Payload.Fits32 v.size) (hsorted : v.sortedIds.size ≤ v.size) (hl : g.lowered = .ok l)
    (hts : l.tables = .ok ts) (sizes : ts.toList.map Table.size = p.places.toList.map Array.size)
    (hsuits : ∀ i ∈ p.flatPlaces, (p.masks.getD i .empty).Suits v) :
    deserialize hash (serialize hash ⟨g, l, v, ts, p⟩) v = .ok (inOrder ⟨g, l, v, ts, p⟩) := by
  have suits : ∀ m ∈ p.inOrderOfUse.2, m.Suits v := p.forall_inOrderOfUse hsuits
  have flat : p.flatPlaces.length = (ts.toList.map Table.size).sum := by
    rw [p.length_flatPlaces, sizes]
  have states := Grammar.fits32_sum_sizes (lowered_spec hg hl).1 hts
  have fits : Fits32 ⟨g, l, v, ts, p⟩ := by
    refine ⟨fun m hm => (suits m hm).fits32 hsize hsorted, fun k hk => ?_⟩
    have masks := p.length_masks_inOrderOfUse_le
    exact lt_of_lt_of_le (MaskPool.lt_of_mem_inOrderOfUse hk) (masks.trans flat.le) |>.trans states
  obtain ⟨payload, hpayload, hrecord⟩ := fits.read hash
  exact deserialize_of_record hpayload hrecord rfl (Grammar.deserialize_serialize_eq hg hfits) hl hts
    (p.length_inOrderOfUse.trans flat) suits fun k hk => MaskPool.lt_of_mem_inOrderOfUse hk

/-- A compiled grammar is read back with its masks in the order of their use. -/
theorem deserialize_serialize_eq (hg : g.Valid) (hfits : g.Fits32) (hv : v.Regular) (hsize : Payload.Fits32 v.size)
    (hsorted : v.sortedIds.size ≤ v.size) (h : compile g v = .ok c) :
    deserialize hash (c.serialize hash) v = .ok c.inOrder := by
  obtain ⟨l, ts, hl, hts, rfl⟩ := compile_eq_ok.1 h
  exact deserialize_serialize_pool hg hfits hsize hsorted hl hts (MaskPool.sizes_ofTables v ts)
    (MaskPool.suits_of_mem_flatPlaces hv ts)

/-- Putting the masks in order changes neither the masks of the states nor the serialized form. -/
theorem inOrder_spec (h : compile g v = .ok c) :
    (∀ r s, c.inOrder.mask r s = c.mask r s) ∧ c.inOrder.serialize hash = c.serialize hash := by
  obtain ⟨l, ts, hl, hts, rfl⟩ := compile_eq_ok.1 h
  have sizes := MaskPool.sizes_ofTables v ts
  refine ⟨MaskPool.maskAt_renumbered sizes, ?_⟩
  have numbered : ((MaskPool.ofTables v ts).renumbered (ts.toList.map Table.size)).inOrderOfUse =
      (MaskPool.ofTables v ts).inOrderOfUse :=
    MaskPool.inOrderOfUse_renumbered (by rw [MaskPool.length_flatPlaces, sizes])
  simp only [serialize, toJson, inOrder, numbered]

end

/-- A vocabulary of token strings is read back from its serialized form as it was, and a grammar that was
compiled against it is read back with the same grammar, the same tables and the same mask for each state. It
is then serialized as before. This is so for every hash that fingerprints are made with. -/
theorem survives_serialization (hash : Vocabulary.Traits → UInt64) {tokens : List String}
    {kind : Vocabulary.Kind} {size : Option Nat} {stop : Setting (List Nat)} {addsSpace : Bool} {v : Vocabulary}
    (hv : Vocabulary.ofTokens tokens kind size stop addsSpace = .ok v)
    (hsize : Payload.Fits32 v.size) : Vocabulary.deserialize v.serialize = .ok v ∧
      ∀ g c, g.Valid → g.Fits32 → compile g v = .ok c →
        ∃ c', deserialize hash (c.serialize hash) v = .ok c' ∧ c'.grammar = c.grammar ∧ c'.lowered = c.lowered ∧
          c'.vocabulary = c.vocabulary ∧ c'.tables = c.tables ∧ (∀ r s, c'.mask r s = c.mask r s) ∧
            c'.serialize hash = c.serialize hash := by
  refine ⟨Vocabulary.deserialize_serialize_ofTokens hv hsize, fun g c hg hfits h => ?_⟩
  obtain ⟨hmask, hserialize⟩ := inOrder_spec h
  exact ⟨c.inOrder, deserialize_serialize_eq hg hfits (Vocabulary.regular_of_ofTokens hv) hsize
    (Vocabulary.size_sortedIds_le hv) h, rfl, rfl, rfl, rfl, hmask, hserialize⟩

/-- The grammar of runs of `a`. -/
def runsOfA : Grammar where
  rules := #[⟨"root", 4, none⟩]
  exprs := #[.leaf (.reference 0), .leaf (.literal [97]), .sequence [0, 1], .leaf .empty, .choice [2, 3]]
  root := 0

/-- The vocabulary of the tokens `a` and `aa`. -/
def someA : Vocabulary := .ofBytes ["a", "aa"] .raw 2 false [[97], [97, 97]] []

theorem someA_survives_serialization : Vocabulary.deserialize someA.serialize = .ok someA ∧
    ∀ hash, ∃ c c', compile runsOfA someA = .ok c ∧ deserialize hash (c.serialize hash) someA = .ok c' ∧
      ∀ r s, c'.mask r s = c.mask r s := by
  have made : Vocabulary.ofTokens ["a", "aa"] .raw none .unset false = .ok someA :=
    Vocabulary.ofTokens_eq_ok.2 ⟨by decide, _, by decide +kernel, [], by decide +kernel, rfl⟩
  have compiles : (compile runsOfA someA).toOption.isSome = true := by decide +kernel
  obtain ⟨c, hc⟩ := Option.isSome_iff_exists.1 compiles
  have hc := Except.toOption_eq_some.1 hc
  refine ⟨(survives_serialization (fun _ => 0) made (by decide)).1, fun hash => ?_⟩
  obtain ⟨-, grammars⟩ := survives_serialization hash made (by decide)
  obtain ⟨c', hc', -, -, -, -, hmask, -⟩ := grammars runsOfA c (by decide) (by decide) hc
  exact ⟨c, c', hc, hc', hmask⟩

end Compiled

end ConstrainedDecoding
