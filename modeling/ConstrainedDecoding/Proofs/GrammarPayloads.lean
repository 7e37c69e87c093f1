import ConstrainedDecoding.Grammar.Payload
import ConstrainedDecoding.Proofs.Drafts
import ConstrainedDecoding.Proofs.Payloads

/-!
# Grammars that are read back

A valid grammar whose numbers fit 32 bits is read back from its serialized form, and whatever is read
from a text is such a grammar.
-/
namespace ConstrainedDecoding

open Json (Value)
open Payload

/-! ## Numbers -/

/-- The rule and the parts of a node have numbers of 32 bits. -/
structure Expr.Fits32 (e : Expr) : Prop where
  rule : ∀ r ∈ e.rule?, Payload.Fits32 r
  children : ∀ c ∈ e.children, Payload.Fits32 c

/-- The nodes of a rule have numbers of 32 bits, and its body is not taken for a missing one. -/
structure Rule.Fits32 (r : Rule) : Prop where
  body : Payload.Fits32 r.body
  hasBody : r.body ≠ Draft.noBody
  lookahead : ∀ l ∈ r.lookahead, Payload.Fits32 l.expr

/-- All numbers of a grammar fit 32 bits. -/
structure Grammar.Fits32 (g : Grammar) : Prop where
  root : Payload.Fits32 g.root
  rules : ∀ r ∈ g.rules, r.Fits32
  exprs : ∀ e ∈ g.exprs, e.Fits32

instance (e : Expr) : Decidable e.Fits32 :=
  decidable_of_iff ((∀ r ∈ e.rule?, Payload.Fits32 r) ∧ ∀ c ∈ e.children, Payload.Fits32 c)
    ⟨fun h => ⟨h.1, h.2⟩, fun h => ⟨h.rule, h.children⟩⟩

instance (r : Rule) : Decidable r.Fits32 :=
  decidable_of_iff
    (Payload.Fits32 r.body ∧ r.body ≠ Draft.noBody ∧ ∀ l ∈ r.lookahead, Payload.Fits32 l.expr)
    ⟨fun h => ⟨h.1, h.2.1, h.2.2⟩, fun h => ⟨h.body, h.hasBody, h.lookahead⟩⟩

instance (g : Grammar) : Decidable g.Fits32 :=
  decidable_of_iff (Payload.Fits32 g.root ∧ (∀ r ∈ g.rules, r.Fits32) ∧ ∀ e ∈ g.exprs, e.Fits32)
    ⟨fun h => ⟨h.1, h.2.1, h.2.2⟩, fun h => ⟨h.root, h.rules, h.exprs⟩⟩

namespace Grammar

/-! ## Nodes -/

theorem readByte?_toJson (b : UInt8) : readByte? (.nat b.toNat) = some b := by
  simp [readByte?, below?_nat b.toNat_lt]

theorem readWord32?_toJson (w : UInt32) : readWord32? (.nat w.toNat) = some w := by
  simp [readWord32?, word?_nat (fits32_toNat w)]

/-- A range of a class as it is written. -/
def rangeJson (r : UInt32 × UInt32) : Value := .array [.nat r.1.toNat, .nat r.2.toNat]

theorem readRange?_toJson (r : UInt32 × UInt32) : readRange? (rangeJson r) = some r := by
  simp [rangeJson, readRange?, readWord32?_toJson]

theorem readClass?_toJson (set : CharClass) :
    readClass? (some (.bool set.negated)) (some (.array (set.ranges.map rangeJson))) = some set := by
  have ranges : list? readRange? (.array (set.ranges.map rangeJson)) = some set.ranges :=
    list?_map fun r _ => readRange?_toJson r
  simp [readClass?, required?, bool?, ranges]

theorem members_eq (set : CharClass) : set.members =
    [("negated", .bool set.negated), ("ranges", .array (set.ranges.map rangeJson))] := rfl

section

variable {v w u : Value} {r : RuleId} {items : List ExprId}

theorem readExpr?_sequence (h : list? word? v = some items) :
    readExpr? (.object [("kind", .string "sequence"), ("items", v)]) = some (.sequence items) := by
  change (list? word? v).bind (fun items => some (Expr.sequence items)) = _
  rw [h, Option.bind_some]

theorem readExpr?_choice (h : list? word? v = some items) :
    readExpr? (.object [("kind", .string "choices"), ("items", v)]) = some (.choice items) := by
  change (list? word? v).bind (fun items => some (Expr.choice items)) = _
  rw [h, Option.bind_some]

theorem readExpr?_literal {bytes : Bytes} (h : list? readByte? v = some bytes) :
    readExpr? (.object [("kind", .string "byte_string"), ("bytes", v)]) = some (.leaf (.literal bytes)) := by
  change (list? readByte? v).bind (fun bytes => some (Expr.leaf (.literal bytes))) = _
  rw [h, Option.bind_some]

theorem readExpr?_charClass (set : CharClass) :
    readExpr? (.object (("kind", .string "character_class") :: set.members)) = some (.leaf (.charClass set)) := by
  change (readClass? (some (.bool set.negated)) (some (.array (set.ranges.map rangeJson)))).bind
    (fun set => some (Expr.leaf (.charClass set))) = _
  rw [readClass?_toJson, Option.bind_some]

theorem readExpr?_charClassStar (set : CharClass) :
    readExpr? (.object (("kind", .string "character_class_star") :: set.members)) =
      some (.leaf (.charClassStar set)) := by
  change (readClass? (some (.bool set.negated)) (some (.array (set.ranges.map rangeJson)))).bind
    (fun set => some (Expr.leaf (.charClassStar set))) = _
  rw [readClass?_toJson, Option.bind_some]

theorem readExpr?_reference (h : word? v = some r) :
    readExpr? (.object [("kind", .string "rule_ref"), ("rule", v)]) = some (.leaf (.reference r)) := by
  change (word? v).bind (fun r => some (Expr.leaf (.reference r))) = _
  rw [h, Option.bind_some]

theorem readExpr?_repetition {least : UInt32} {most : Option UInt32} (h : word? v = some r)
    (hleast : readWord32? w = some least) (hmost : optional? readWord32? (some u) = some most) :
    readExpr? (.object [("kind", .string "repeat"), ("rule", v), ("min", w), ("max", u)]) =
      some (.leaf (.repetition r least most)) := by
  change (word? v).bind (fun r => (readWord32? w).bind fun least =>
    (optional? readWord32? (some u)).bind fun most => some (Expr.leaf (.repetition r least most))) = _
  simp only [h, hleast, hmost, Option.bind_some]

end

theorem list?_numbers {items : List ExprId} (h : ∀ c ∈ items, Payload.Fits32 c) :
    list? word? (.array (items.map .nat)) = some items :=
  list?_map fun c hc => word?_nat (h c hc)

/-- A node is read back. -/
theorem readExpr?_toJson {e : Expr} (h : e.Fits32) : readExpr? e.toJson = some e := by
  cases e with
  | sequence items => exact readExpr?_sequence (list?_numbers h.children)
  | choice items => exact readExpr?_choice (list?_numbers h.children)
  | leaf l =>
    cases l with
    | empty => rfl
    | literal bytes => exact readExpr?_literal (list?_map fun b _ => readByte?_toJson b)
    | charClass set => exact readExpr?_charClass set
    | charClassStar set => exact readExpr?_charClassStar set
    | reference r => exact readExpr?_reference (word?_nat (h.rule r rfl))
    | repetition r least most =>
      have rule := word?_nat (h.rule r rfl)
      have least' := readWord32?_toJson least
      cases most with
      | none => exact readExpr?_repetition rule least' rfl
      | some most =>
        refine readExpr?_repetition rule least' ?_
        rw [optional?_nat, readWord32?_toJson]
        rfl

/-- The words of a list are numbers of 32 bits. -/
theorem fits32_of_list? {v : Option Value} {items : List ExprId} (h : required? (list? word?) v = some items) :
    ∀ c ∈ items, Payload.Fits32 c := by
  obtain ⟨w, -, hw⟩ := exists_of_required? h
  exact forall_of_list? (fun _ _ => fits32_of_word?) hw

theorem fits32_of_required? {v : Option Value} {n : Nat} (h : required? word? v = some n) : Payload.Fits32 n := by
  obtain ⟨w, -, hw⟩ := exists_of_required? h
  exact fits32_of_word? hw

/-- What is read as a node has numbers of 32 bits. -/
theorem fits32_of_readExpr? {v : Value} {e : Expr} (h : readExpr? v = some e) : e.Fits32 := by
  simp only [readExpr?, Option.bind_eq_bind, Option.bind_eq_some_iff] at h
  obtain ⟨kindAndParts, -, h⟩ := h
  split at h <;> simp only [Option.pure_def, Option.bind_eq_some_iff, Option.some.injEq, reduceCtorEq] at h
  · subst h
    exact ⟨nofun, nofun⟩
  · obtain ⟨bytes, -, rfl⟩ := h
    exact ⟨nofun, nofun⟩
  · obtain ⟨set, -, rfl⟩ := h
    exact ⟨nofun, nofun⟩
  · obtain ⟨set, -, rfl⟩ := h
    exact ⟨nofun, nofun⟩
  · obtain ⟨r, hr, rfl⟩ := h
    refine ⟨?_, nofun⟩
    rintro _ ⟨⟩
    exact fits32_of_required? hr
  · obtain ⟨items, hitems, rfl⟩ := h
    exact ⟨nofun, fits32_of_list? hitems⟩
  · obtain ⟨items, hitems, rfl⟩ := h
    exact ⟨nofun, fits32_of_list? hitems⟩
  · obtain ⟨r, hr, least, -, most, -, rfl⟩ := h
    refine ⟨?_, nofun⟩
    rintro _ ⟨⟩
    exact fits32_of_required? hr

/-! ## Rules -/

theorem readLookahead?_object {v : Value} {l : Lookahead} (h : word? v = some l.expr) :
    readLookahead? (.object [("expr", v), ("is_exact", .bool l.isExact)]) = some l := by
  simp [readLookahead?, parts?, Value.lookup, required?, bool?, h]

theorem readRule?_object {v : Value} {name : String} {body : ExprId} (h : word? v = some body)
    (hbody : body ≠ Draft.noBody) :
    readRule? (.object [("name", .string name), ("body", v)]) = some ⟨name, some body, none⟩ := by
  simp [readRule?, parts?, Value.lookup, required?, optional?, string?, h, hbody]

theorem readRule?_object_lookahead {v : Value} {members : List (String × Value)} {name : String} {body : ExprId}
    {l : Lookahead} (h : word? v = some body) (hbody : body ≠ Draft.noBody)
    (hl : readLookahead? (.object members) = some l) :
    readRule? (.object [("name", .string name), ("body", v), ("lookahead", .object members)]) =
      some ⟨name, some body, some l⟩ := by
  simp [readRule?, parts?, Value.lookup, required?, optional?, string?, h, hbody, hl]

/-- A rule is read back as a rule of a draft. -/
theorem readRule?_toJson {r : Rule} (h : r.Fits32) : readRule? r.toJson = some r.draft := by
  obtain ⟨name, body, lookahead⟩ := r
  cases lookahead with
  | none => exact readRule?_object (word?_nat h.body) h.hasBody
  | some l =>
    exact readRule?_object_lookahead (word?_nat h.body) h.hasBody
      (readLookahead?_object (word?_nat (h.lookahead l rfl)))

/-- What is read as the rule of a grammar has numbers of 32 bits. -/
theorem fits32_of_readRule? {v : Value} {r : Rule} (h : readRule? v = some r.draft) : r.Fits32 := by
  simp only [readRule?, Option.bind_eq_bind, Option.bind_eq_some_iff] at h
  obtain ⟨parts, -, h⟩ := h
  split at h
  · simp only [Option.pure_def, Option.bind_eq_some_iff, Option.some.injEq] at h
    obtain ⟨name, -, body, hbody, lookahead, hlookahead, h⟩ := h
    obtain ⟨rfl, heq, rfl⟩ := DraftRule.mk.inj h
    split at heq
    · cases heq
    · rename_i hne
      obtain rfl := Option.some.inj heq
      refine ⟨fits32_of_required? hbody, hne, ?_⟩
      refine of_optional? (fun v l hl => ?_) hlookahead
      simp only [readLookahead?, Option.bind_eq_bind, Option.bind_eq_some_iff] at hl
      obtain ⟨parts, -, hl⟩ := hl
      split at hl
      · simp only [Option.pure_def, Option.bind_eq_some_iff, Option.some.injEq] at hl
        obtain ⟨expr, hexpr, exact, -, rfl⟩ := hl
        exact fits32_of_required? hexpr
      · cases hl
  · cases h

/-! ## Grammars -/

theorem kept_rangeJson {depth : Nat} (r : UInt32 × UInt32) : (rangeJson r).Kept (depth + 1) :=
  .array (by simp [kept_word (fits32_toNat _)])

/-- The text of a node can be read back. -/
theorem kept_toJson {depth : Nat} {e : Expr} (h : e.Fits32) : e.toJson.Kept (depth + 3) := by
  have numbers {items : List ExprId} (h : ∀ c ∈ items, Payload.Fits32 c) :
      Value.Kept (depth + 2) (.array (items.map .nat)) := kept_array fun c hc => kept_word (h c hc)
  have members (set : CharClass) : ∀ m ∈ set.members, m.2.Kept (depth + 2) := by
    rw [members_eq]
    simp only [List.forall_mem_cons]
    exact ⟨.bool, kept_array fun r _ => kept_rangeJson r, List.forall_mem_nil _⟩
  cases e with
  | sequence items => exact .object (by simp) (by simpa using ⟨Value.Kept.string, numbers h.children⟩)
  | choice items => exact .object (by simp) (by simpa using ⟨Value.Kept.string, numbers h.children⟩)
  | leaf l =>
    cases l with
    | empty => exact .object (by simp) (by simpa using Value.Kept.string)
    | literal bytes =>
      have bytes : Value.Kept (depth + 2) (.array (bytes.map fun b => .nat b.toNat)) :=
        kept_array fun b _ => kept_word (lt_trans b.toNat_lt (by decide))
      exact .object (by simp) (by simpa using ⟨Value.Kept.string, bytes⟩)
    | charClass set =>
      exact .object (by simp [members_eq]) (List.forall_mem_cons.2 ⟨.string, members set⟩)
    | charClassStar set =>
      exact .object (by simp [members_eq]) (List.forall_mem_cons.2 ⟨.string, members set⟩)
    | reference r => exact .object (by simp) (by simpa using ⟨Value.Kept.string, kept_word (h.rule r rfl)⟩)
    | repetition r least most =>
      refine .object (by simp) ?_
      simp only [List.forall_mem_cons]
      refine ⟨.string, kept_word (h.rule r rfl), kept_word (fits32_toNat _), ?_, List.forall_mem_nil _⟩
      cases most with
      | none => exact .null
      | some most => exact kept_word (fits32_toNat _)

theorem kept_rule {depth : Nat} {r : Rule} (h : r.Fits32) : r.toJson.Kept (depth + 2) := by
  obtain ⟨name, body, lookahead⟩ := r
  cases lookahead with
  | none => exact .object (by simp) (by simpa using ⟨Value.Kept.string, kept_word h.body⟩)
  | some l =>
    have lookahead : Value.Kept (depth + 1) (.object [("expr", .nat l.expr), ("is_exact", .bool l.isExact)]) :=
      .object (by simp) (by simpa using ⟨kept_word (h.lookahead l rfl), Value.Kept.bool⟩)
    exact .object (by simp) (by simpa using ⟨Value.Kept.string, kept_word h.body, lookahead⟩)

/-- The text of a grammar can be read back. -/
theorem Fits32.kept {g : Grammar} (h : g.Fits32) : g.toJson.Kept Json.depthLimit := by
  have rules : Value.Kept 126 (.array (g.rules.toList.map Rule.toJson)) :=
    kept_array fun r hr => kept_rule (h.rules r (Array.mem_toList_iff.1 hr))
  have exprs : Value.Kept 126 (.array (g.exprs.toList.map Expr.toJson)) :=
    kept_array fun e he => kept_toJson (h.exprs e (Array.mem_toList_iff.1 he))
  exact .object (by simp) (by simpa using ⟨Value.Kept.string, rules, exprs, kept_word h.root⟩)

theorem readDraft?_object (version : Value) {rules exprs root : Value} {rs : List DraftRule} {es : List Expr}
    {r : RuleId} (hrules : list? readRule? rules = some rs) (hexprs : list? readExpr? exprs = some es)
    (hroot : word? root = some r) :
    readDraft? (.object [("version", version), ("rules", rules), ("exprs", exprs), ("root_rule", root)]) =
      some (⟨rs.toArray, es.toArray, rs.foldl (fun t r => t.declare r.name) NameTable.empty⟩, r) := by
  simp [readDraft?, Value.member?, Value.lookup, required?, hrules, hexprs, hroot]

/-- A grammar is read back as the draft of its rules and nodes. -/
theorem readDraft?_toJson {g : Grammar} (h : g.Fits32) :
    ∃ names, readDraft? g.toJson = some (⟨g.rules.map Rule.draft, g.exprs, names⟩, g.root) := by
  have rules : list? readRule? (.array (g.rules.toList.map Rule.toJson)) = some (g.rules.toList.map Rule.draft) :=
    Option.mapM_map_eq_some fun r hr => readRule?_toJson (h.rules r (Array.mem_toList_iff.1 hr))
  have exprs : list? readExpr? (.array (g.exprs.toList.map Expr.toJson)) = some g.exprs.toList :=
    list?_map fun e he => readExpr?_toJson (h.exprs e (Array.mem_toList_iff.1 he))
  have drafts : (g.rules.toList.map Rule.draft).toArray = g.rules.map Rule.draft := by
    rw [← Array.toList_map, Array.toArray_toList]
  have read := readDraft?_object (.string payloadVersion) rules exprs (word?_nat h.root)
  rw [drafts, Array.toArray_toList] at read
  exact ⟨_, read⟩

/-- A valid grammar is read back from its serialized form. -/
theorem deserialize_serialize_eq {g : Grammar} (hg : g.Valid) (h : g.Fits32) :
    deserialize g.serialize = .ok g := by
  obtain ⟨names, hread⟩ := readDraft?_toJson h
  have payload : Payload.parse g.serialize = .ok g.toJson := parse_text h.kept rfl
  have finish : (⟨g.rules.map Rule.draft, g.exprs, names⟩ : Draft).finish g.root = .ok g :=
    Draft.finish_eq_ok.2 ⟨hg, rfl, rfl, rfl⟩
  simp [deserialize, payload, hread, finish, bind, Except.bind, Except.mapError]

/-- What is read from a text is a valid grammar with numbers of 32 bits. -/
theorem valid_of_deserialize {text : String} {g : Grammar} (h : deserialize text = .ok g) : g.Valid ∧ g.Fits32 := by
  obtain ⟨v, -, h⟩ := Except.bind_eq_ok.1 h
  split at h
  · cases h
  rename_i d root hread
  obtain ⟨hg, rfl, hexprs, hrules⟩ := Draft.finish_eq_ok.1 (Except.mapError_eq_ok.1 h)
  simp only [readDraft?, Option.bind_eq_bind, Option.bind_eq_some_iff, Option.pure_def, Option.some.injEq] at hread
  obtain ⟨rs, hrs, es, hes, root, hroot, heq⟩ := hread
  obtain ⟨rfl, rfl⟩ := Prod.mk.inj heq
  obtain ⟨w, -, hw⟩ := exists_of_required? hrs
  obtain ⟨u, -, hu⟩ := exists_of_required? hes
  have hrules : rs.toArray = g.rules.map Rule.draft := hrules
  have hexprs : g.exprs = es.toArray := hexprs
  refine ⟨hg, fits32_of_required? hroot, fun r hr => ?_, fun e he => ?_⟩
  · have hmem : r.draft ∈ rs := by
      rw [← List.mem_toArray, hrules]
      exact Array.mem_map_of_mem hr
    have read : ∀ x ∈ rs, ∀ r : Rule, x = r.draft → r.Fits32 :=
      forall_of_list? (fun v x hx r heq => fits32_of_readRule? (heq ▸ hx)) hw
    exact read _ hmem r rfl
  · rw [hexprs, List.mem_toArray] at he
    exact forall_of_list? (fun _ _ => fits32_of_readExpr?) hu e he

/-- A valid grammar whose numbers fit 32 bits is read back from its serialized form. Whatever is read from
a text is such a grammar, and so it is read again when it is serialized. -/
theorem deserialize_serialize : (∀ g : Grammar, g.Valid → g.Fits32 → deserialize g.serialize = .ok g) ∧
    ∀ text g, deserialize text = .ok g →
      g.Valid ∧ g.Fits32 ∧ deserialize g.serialize = .ok g := by
  refine ⟨fun g => deserialize_serialize_eq, fun text g h => ?_⟩
  obtain ⟨hg, hfits⟩ := valid_of_deserialize h
  exact ⟨hg, hfits, deserialize_serialize_eq hg hfits⟩

/-- A grammar with a quote in a name, a byte that is no text, a repetition and a lookahead. -/
def guarded : Grammar :=
  ⟨#[⟨"a\"", 1, some ⟨0, true⟩⟩], #[.leaf (.literal [0xff]), .leaf (.repetition 0 1 (some 2))], 0⟩

theorem guarded_deserialize_serialize : deserialize guarded.serialize = .ok guarded :=
  deserialize_serialize.1 guarded (by decide) (by decide)

end Grammar

end ConstrainedDecoding
