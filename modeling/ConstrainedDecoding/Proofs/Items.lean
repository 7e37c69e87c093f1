import ConstrainedDecoding.Compiled.Basic
import ConstrainedDecoding.Proofs.Canonical
import ConstrainedDecoding.Proofs.Reduced
import ConstrainedDecoding.Proofs.Table

/-!
# Items

An item says that at a position of a text a place in the table of a rule can be reached, the rule
having been entered at an earlier position. From the item of the start of the text, further items
follow by reading a byte, by calling a rule, and by going on after a rule that has ended. The text
belongs to the language of the root rule if and only if an item of the root at its end accepts.
-/
namespace ConstrainedDecoding

open Letter

namespace Compiled

/-! ## Tables of a compiled grammar -/

/-- The tables lead nowhere outside themselves, and there is one for the root. -/
structure Regular (c : Compiled) : Prop where
  root_lt : c.root < c.tables.size
  table : ∀ r < c.tables.size, (c.table r).InRange c.tables.size

/-- The words that lead from a state of a rule to an accepting one. -/
def words (c : Compiled) (r : RuleId) (s : StateId) : Language Letter :=
  {w | (c.table r).Accepts s w}

/-- The words of the rules. -/
def network (c : Compiled) : Network := fun r => c.words r 0

private theorem not_accepts_empty (s : StateId) (w : List Letter) :
    ¬ Table.Accepts ⟨#[], #[], #[], #[]⟩ s w := by
  cases w with
  | nil => simp [Table.Accepts, Table.accepts]
  | cons a w =>
    cases a <;> simp [Table.Accepts, Table.next?, Table.entry, Table.callsOf]

/-- The tables of a valid grammar are regular, and describe what the rules of the grammar do. -/
theorem network_of_tables {l : Grammar} (hl : l.Valid) {c : Compiled} (hlow : c.lowered = l)
    (h : l.tables = .ok c.tables) : c.Regular ∧ c.network = l.network := by
  obtain ⟨hsize, htables⟩ := Grammar.tables_spec hl h
  have table (r : Nat) (hr : r < c.tables.size) :
      c.tables[r]? = some (c.table r) := by simp [table, Array.getD_eq_getD_getElem?, hr]
  refine ⟨⟨?_, fun r hr => ?_⟩, funext fun r => ?_⟩
  · rw [root, hlow, hsize]
    exact hl.root_lt
  · have := (htables r _ (table r hr)).1
    rwa [hsize]
  · ext w
    by_cases hr : r < c.tables.size
    · exact (htables r _ (table r hr)).2 w
    · have hbody : l.body r = none := by
        simpa [Grammar.body, ← hsize] using hr
      have hempty : c.table r = ⟨#[], #[], #[], #[]⟩ := by
        simp [Compiled.table, Array.getD_eq_getD_getElem?, hr]
      rw [Grammar.network_of_no_body hbody]
      simp only [network, words, hempty]
      exact iff_of_false (not_accepts_empty 0 w) (Language.notMem_zero w)

/-- Lowering keeps the language of a grammar. -/
theorem lowered_spec {g l : Grammar} (hg : g.Valid) (h : g.lowered = .ok l) :
    l.Valid ∧ l.language = g.language := by
  unfold Grammar.lowered at h
  cases hc : (do Grammar.reduced (← g.canonical)) with
  | error err => simp [hc, Except.mapError] at h
  | ok l' =>
    obtain rfl : l' = l := by simpa [hc, Except.mapError] using h
    obtain ⟨g₁, h₁, h₂⟩ := Except.bind_eq_ok.1 hc
    obtain ⟨hl', hlang⟩ := Grammar.reduced_spec (Grammar.canonical_spec hg h₁).1 h₂
    exact ⟨hl', hlang.trans (Grammar.language_canonical hg h₁)⟩

/-- The tables of a compiled grammar describe the language of the grammar. -/
theorem compile_spec {g : Grammar} {v : Vocabulary} {c : Compiled} (hg : g.Valid)
    (h : compile g v = .ok c) :
    c.Regular ∧ c.network.reading c.root = g.language ∧ c.tables.size = c.lowered.rules.size ∧
      c.vocabulary = v := by
  obtain ⟨l, hl, h⟩ := Except.bind_eq_ok.1 h
  obtain ⟨ts, hts, h⟩ := Except.bind_eq_ok.1 h
  obtain rfl := Except.ok.inj h
  obtain ⟨hvalid, hlang⟩ := lowered_spec hg hl
  obtain ⟨hregular, hnetwork⟩ :=
    network_of_tables (c := ⟨g, l, v, ts, .ofTables v ts⟩) hvalid rfl hts
  refine ⟨hregular, ?_, (Grammar.tables_spec hvalid hts).1, rfl⟩
  rw [hnetwork, Grammar.reading_network]
  exact hlang

end Compiled

/-! ## Items -/

/-- A place in the table of a rule that was entered at a position; none for the root. -/
abbrev Place := RuleId × StateId × Option Nat

/-- The places that can be reached at the positions of a text. -/
inductive Item (c : Compiled) (w : Bytes) : Nat → Place → Prop
  | root : Item c w 0 (c.root, 0, none)
  | scan {p : Nat} {r : RuleId} {s s' : StateId} {k : Option Nat} {b : UInt8}
    (item : Item c w p (r, s, k)) (hb : w[p]? = some b) (hs : (c.table r).next? s b = some s') :
    Item c w (p + 1) (r, s', k)
  | call {p : Nat} {r r' : RuleId} {s s' : StateId} {k : Option Nat}
    (item : Item c w p (r, s, k)) (hs : (r', s') ∈ (c.table r).callsOf s) :
    Item c w p (r', 0, some p)
  | resume {p q : Nat} {r r' : RuleId} {s s' f : StateId} {k : Option Nat}
    (caller : Item c w q (r, s, k)) (hs : (r', s') ∈ (c.table r).callsOf s)
    (ended : Item c w p (r', f, some q)) (hf : (c.table r').accepts f = true) :
    Item c w p (r, s', k)

/-- The bytes of a text from one position to another. -/
def segment (w : Bytes) (i j : Nat) : Bytes := (w.take j).drop i

@[simp] theorem segment_self (w : Bytes) (i : Nat) : segment w i i = [] := by simp [segment]

theorem segment_append (w : Bytes) {i j k : Nat} (hij : i ≤ j) (hjk : j ≤ k) :
    segment w i j ++ segment w j k = segment w i k := by
  unfold segment
  conv_rhs => rw [← List.take_append_drop (j - i) ((w.take k).drop i)]
  rw [← List.drop_take, List.take_take, List.drop_drop, Nat.min_eq_left hjk,
    Nat.add_sub_cancel' hij]

theorem segment_succ {w : Bytes} {i : Nat} {b : UInt8} (h : w[i]? = some b) :
    segment w i (i + 1) = [b] := by
  obtain ⟨hi, rfl⟩ := List.getElem?_eq_some_iff.1 h
  rw [segment, List.take_add_one, h, List.drop_append_of_le_length (by simp; omega)]
  simp

theorem segment_zero_length (w : Bytes) : segment w 0 w.length = w := by simp [segment]

namespace Item

variable {c : Compiled} {w : Bytes}

/-- Only rules of the grammar are entered. -/
theorem rule_lt (hc : c.Regular) {p : Nat} {i : Place} (h : Item c w p i) :
    i.1 < c.tables.size := by
  induction h with
  | root => exact hc.root_lt
  | scan _ _ _ ih => exact ih
  | call _ hs ih => exact ((hc.table _ ih).call_lt _ _ _ hs).1
  | resume _ _ _ _ ih _ => exact ih

/-- What was read since a rule was entered, followed by what may be read from a place of the rule,
is what the rule describes. -/
theorem sound {p : Nat} {i : Place} (h : Item c w p i) :
    i.2.2.getD 0 ≤ p ∧ (i.2.2 = none → i.1 = c.root) ∧
      ∀ v ∈ expand c.network.reading (c.words i.1 i.2.1),
        segment w (i.2.2.getD 0) p ++ v ∈ c.network.reading i.1 := by
  induction h with
  | root =>
    refine ⟨le_rfl, fun _ => rfl, fun v hv => ?_⟩
    rw [Network.reading_eq, Option.getD_none, segment_self]
    exact hv
  | @scan p r s s' k b item hb hs ih =>
    obtain ⟨hk, hroot, ih⟩ := ih
    refine ⟨Nat.le_succ_of_le hk, hroot, fun v hv => ?_⟩
    obtain ⟨word, hword, hv⟩ := hv
    have := ih (b :: v) ⟨.byte b :: word, ⟨s', hs, hword⟩, by
      rw [wordLanguage_cons]
      exact ⟨[b], rfl, v, hv, rfl⟩⟩
    rw [← segment_append w hk (Nat.le_succ p), segment_succ hb, List.append_assoc]
    exact this
  | @call p r r' s s' k item hs ih =>
    refine ⟨le_rfl, by simp, fun v hv => ?_⟩
    rw [Network.reading_eq, Option.getD_some, segment_self]
    exact hv
  | @resume p q r r' s s' f k caller hs ended hf ih₁ ih₂ =>
    obtain ⟨hk, hroot, ih₁⟩ := ih₁
    obtain ⟨hq, -, ih₂⟩ := ih₂
    refine ⟨hk.trans hq, hroot, fun v hv => ?_⟩
    obtain ⟨word, hword, hv⟩ := hv
    have called := ih₂ [] ⟨[], hf, by simp⟩
    rw [List.append_nil] at called
    have := ih₁ (segment w q p ++ v) ⟨.call r' :: word, ⟨s', hs, hword⟩, by
      rw [wordLanguage_cons]
      exact ⟨_, called, v, hv, rfl⟩⟩
    rw [← segment_append w hk hq, List.append_assoc]
    exact this

/-- Before a position at which a place can be reached, every byte is read from some place. -/
theorem exists_scan {n : Nat} {i : Place} (h : Item c w n i) : ∀ p < n, ∃ r s k b s',
    Item c w p (r, s, k) ∧ w[p]? = some b ∧ (c.table r).next? s b = some s' := by
  induction h with
  | root => exact fun p hp => absurd hp (Nat.not_lt_zero p)
  | scan item hb hs ih =>
    intro p hp
    rcases Nat.lt_succ_iff_lt_or_eq.1 hp with hp | rfl
    exacts [ih p hp, ⟨_, _, _, _, _, item, hb, hs⟩]
  | call _ _ ih => exact ih
  | resume _ _ _ _ _ ih => exact ih

/-- From a place, bytes of the text that the place may read lead to an accepting place, if what rules
describe leads from their starts to accepting places. -/
private theorem exists_accepting {P : Reading}
    (hP : ∀ r, ∀ x ∈ P r, ∀ p, x <+: w.drop p → Item c w p (r, 0, some p) →
      ∃ f, (c.table r).accepts f = true ∧ Item c w (p + x.length) (r, f, some p))
    (r : RuleId) (k : Option Nat) (word : List Letter) :
    ∀ (s : StateId) (p : Nat) (x : Bytes), word ∈ c.words r s → x ∈ wordLanguage P word →
      x <+: w.drop p → Item c w p (r, s, k) →
        ∃ f, (c.table r).accepts f = true ∧ Item c w (p + x.length) (r, f, k) := by
  induction word with
  | nil =>
    intro s p x hword hx _ item
    obtain rfl : x = [] := by simpa using hx
    exact ⟨s, hword, item⟩
  | cons a word ih =>
    intro s p x hword hx hpre item
    rw [wordLanguage_cons] at hx
    obtain ⟨u, hu, v, hv, rfl⟩ := hx
    obtain ⟨rest, hrest⟩ := hpre
    have hpre' : v <+: w.drop (p + u.length) := by
      refine ⟨rest, ?_⟩
      rw [← List.drop_drop, ← hrest, List.append_assoc, List.drop_left]
    obtain ⟨s', hword, item'⟩ : ∃ s', word ∈ c.words r s' ∧
        Item c w (p + u.length) (r, s', k) := by
      cases a with
      | byte b =>
        obtain rfl : u = [b] := hu
        obtain ⟨s', hs', hword⟩ := hword
        refine ⟨s', hword, item.scan ?_ hs'⟩
        have := congrArg (·[0]?) hrest
        simpa using this.symm
      | call r' =>
        obtain ⟨s', hs', hword⟩ := hword
        obtain ⟨f, hf, ended⟩ := hP r' u hu p ⟨v ++ rest, by rw [← List.append_assoc]; exact hrest⟩
          (item.call hs')
        exact ⟨s', hword, item.resume hs' ended hf⟩
    have := ih s' (p + u.length) v hword hv hpre' item'
    rwa [show p + u.length + v.length = p + (u ++ v).length by simp; omega] at this

/-- A text that the root rule describes leads to an accepting place of the root. -/
theorem complete (h : w ∈ c.network.reading c.root) :
    ∃ f, (c.table c.root).accepts f = true ∧ Item c w w.length (c.root, f, none) := by
  let P : Reading := fun r => {x | ∀ p, x <+: w.drop p → Item c w p (r, 0, some p) →
    ∃ f, (c.table r).accepts f = true ∧ Item c w (p + x.length) (r, f, some p)}
  have hP : c.network.reading ≤ P := by
    refine Network.reading_le fun r => ?_
    rintro x ⟨word, hword, hx⟩ p hpre item
    exact exists_accepting (fun r x hx => hx) r (some p) word 0 p x hword hx hpre item
  rw [Network.reading_eq] at h
  obtain ⟨word, hword, hw⟩ := h
  obtain ⟨f, hf, item⟩ := exists_accepting (P := P) (fun r x hx => hx) c.root none word 0 0 w hword
    (wordLanguage_mono hP word hw) (by simp) .root
  exact ⟨f, hf, by simpa using item⟩

/-- A text is what the root rule describes if and only if an accepting place of the root can be
reached at its end. -/
theorem mem_reading_iff : w ∈ c.network.reading c.root ↔
    ∃ f, (c.table c.root).accepts f = true ∧ Item c w w.length (c.root, f, none) := by
  refine ⟨complete, ?_⟩
  rintro ⟨f, hf, item⟩
  have := item.sound.2.2 [] ⟨[], hf, by simp⟩
  rwa [List.append_nil, Option.getD_none, segment_zero_length] at this

end Item

end ConstrainedDecoding
