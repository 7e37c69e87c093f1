import ConstrainedDecoding.Proofs.Payloads
import ConstrainedDecoding.Proofs.Vocabulary
import ConstrainedDecoding.Vocabulary.Payload

/-!
# Vocabularies that are read back

A vocabulary of token strings is made again from its tokens and its metadata, so it is read back from its
serialized form as it was.
-/
namespace ConstrainedDecoding.Vocabulary

open Json (Value)
open Payload

/-! ## Metadata -/

theorem ofNat?_toNat (kind : Kind) : Kind.ofNat? kind.toNat = some kind := by cases kind <;> rfl

theorem kind_toNat_lt (kind : Kind) : kind.toNat < 256 := by cases kind <;> decide

theorem readKind_toNat (kind : Kind) : readKind (.nat kind.toNat) = .ok kind := by
  rw [readKind, below?_nat (kind_toNat_lt kind)]
  simp [ofNat?_toNat]

/-- Metadata are read part by part; what else stands in the object is overlooked. -/
theorem readMetadata_parts {version tokens kind size stopIds : Value} {m : Metadata}
    (hkind : readKind kind = .ok m.kind) (hsize : optional? size? (some size) = some m.size)
    (hstop : optional? (list? word?) (some stopIds) = some m.stopIds) :
    readMetadata [("version", version), ("encoded_vocab", tokens), ("vocab_type", kind), ("vocab_size", size),
      ("add_prefix_space", .bool m.addsSpace), ("stop_token_ids", stopIds)] = .ok m := by
  simp [readMetadata, PartialMetadata.read, hkind, hsize, hstop, bool?, bind, Except.bind, pure, Except.pure]

/-! ## Vocabularies of token strings -/

section

variable {tokens : List String} {kind : Kind} {size : Option Nat} {stop : Setting (List Nat)} {addsSpace : Bool}
  {v : Vocabulary}

theorem lt_of_stopIdsOf {size : Nat} {ids : List Nat} (hsize : tokens.length ≤ size)
    (h : stopIdsOf tokens size stop = .ok ids) : ∀ id ∈ ids, id < size := by
  cases stop with
  | set given =>
    rw [stopIdsOf] at h
    split at h
    · cases h
    · rename_i hnone
      obtain rfl := Except.ok.inj h
      simpa using hnone
  | unset =>
    obtain rfl := Except.ok.inj h
    intro id hid
    obtain ⟨⟨token, i⟩, hmem, heq⟩ := List.mem_filterMap.1 hid
    obtain ⟨-, rfl⟩ : _ ∧ i = id := by simpa using heq
    have := (List.getElem?_eq_some_iff.1 (List.mem_zipIdx_iff_getElem?.1 hmem)).1
    omega

theorem ofTokens_eq_ok : ofTokens tokens kind size stop addsSpace = .ok v ↔
    tokens.length ≤ size.getD tokens.length ∧ ∃ decoded, tokens.mapM (tokenBytes kind) = .ok decoded ∧
      ∃ stopIds, stopIdsOf tokens (size.getD tokens.length) stop = .ok stopIds ∧
        v = ofBytes tokens kind (size.getD tokens.length) addsSpace decoded stopIds := by
  unfold ofTokens
  dsimp only
  split
  · rename_i hlt
    exact iff_of_false nofun fun h => absurd hlt (Nat.not_lt.2 h.1)
  · rename_i hge
    simp only [Nat.not_lt.1 hge, true_and, Except.bind_eq_ok, pure, Except.pure, Except.ok.injEq, @eq_comm _ _ v]

/-- A vocabulary is what its tokens and its metadata say, with the stop ids that it has come to. -/
theorem ofMetadata_metadata (h : ofTokens tokens kind size stop addsSpace = .ok v) :
    (∀ id ∈ v.stopIds, id < v.size) ∧ ofMetadata v.tokens.toList v.metadata = .ok v := by
  obtain ⟨hsize, decoded, hdecoded, stopIds, hstop, rfl⟩ := ofTokens_eq_ok.1 h
  have hlt := lt_of_stopIdsOf hsize hstop
  have found : stopIdsOf tokens (size.getD tokens.length) (.set stopIds) = .ok stopIds := by
    rw [stopIdsOf, List.find?_eq_none.2 fun id hid => by simpa using hlt id hid]
  refine ⟨hlt, ?_⟩
  change ofTokens tokens kind (some (size.getD tokens.length)) (.set stopIds) addsSpace = _
  exact ofTokens_eq_ok.2 ⟨hsize, decoded, hdecoded, stopIds, found, rfl⟩

/-- A vocabulary whose size fits 32 bits is read back from its serialized form. -/
theorem deserialize_serialize_ofTokens (h : ofTokens tokens kind size stop addsSpace = .ok v)
    (hsize : Fits32 v.size) : deserialize v.serialize = .ok v := by
  obtain ⟨hlt, hmetadata⟩ := ofMetadata_metadata h
  have fits : ∀ id ∈ v.stopIds, Fits32 id := fun id hid => lt_trans (hlt id hid) hsize
  have tokens : list? string? (.array (v.tokens.toList.map .string)) = some v.tokens.toList :=
    list?_map fun _ _ => rfl
  have stopIds : list? word? (.array (v.stopIds.map .nat)) = some v.stopIds :=
    list?_map fun id hid => word?_nat (fits id hid)
  let parts : List (String × Value) := [("version", .string payloadVersion),
    ("encoded_vocab", .array (v.tokens.toList.map .string)), ("vocab_type", .nat v.kind.toNat),
    ("vocab_size", .nat v.size), ("add_prefix_space", .bool v.addsSpace),
    ("stop_token_ids", .array (v.stopIds.map .nat))]
  have kept : (Value.object parts).Kept Json.depthLimit := by
    have strings : Value.Kept 126 (.array (v.tokens.toList.map .string)) := kept_array fun _ _ => .string
    have ids : Value.Kept 126 (.array (v.stopIds.map .nat)) := kept_array fun id hid => kept_word (fits id hid)
    have kind : Fits32 v.kind.toNat := lt_trans (kind_toNat_lt v.kind) (by decide)
    refine .object (by simp [parts]) ?_
    simp only [parts, List.forall_mem_cons]
    exact ⟨.string, strings, kept_word kind, kept_word hsize, .bool, ids, nofun⟩
  have payload : Payload.parse v.serialize = .ok (.object parts) := parse_text kept rfl
  have size : optional? size? (some (.nat v.size)) = some (some v.size) := by
    rw [optional?_nat, size?_nat hsize.lt, Option.map_some]
  have stop : optional? (list? word?) (some (.array (v.stopIds.map .nat))) = some (some v.stopIds) := by
    rw [optional?_array, stopIds, Option.map_some]
  have metadata : readMetadata parts = .ok v.metadata :=
    readMetadata_parts (m := v.metadata) (readKind_toNat v.kind) size stop
  have member : required? (list? string?) ((Value.object parts).member? "encoded_vocab") = some v.tokens.toList :=
    tokens
  simp [deserialize, payload, member, readMetadataValue, metadata, hmetadata, bind, Except.bind, Except.mapError]

end

end ConstrainedDecoding.Vocabulary
