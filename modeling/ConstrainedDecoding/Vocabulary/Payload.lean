import ConstrainedDecoding.Payload
import ConstrainedDecoding.Vocabulary.Basic

/-!
# Vocabularies as JSON

Metadata say how token strings are to be read. A serialized vocabulary holds them and the token
strings. Metadata can also be told from the description of a tokenizer by its components.
-/
namespace ConstrainedDecoding.Vocabulary

open Json (Value)
open Payload (word? size? bool? string? list? optional? required? parts?)

/-- What is said about the token strings of a vocabulary. -/
structure Metadata where
  kind : Kind
  size : Option Nat
  addsSpace : Bool
  stopIds : Option (List Nat)

/-! ## Writing -/

def Metadata.members (m : Metadata) : List (String × Value) :=
  [("vocab_type", .nat m.kind.toNat)] ++
    (match m.size with
      | some n => [("vocab_size", .nat n)]
      | none => []) ++
    [("add_prefix_space", .bool m.addsSpace)] ++
    match m.stopIds with
    | some ids => [("stop_token_ids", .array (ids.map .nat))]
    | none => []

/-- The text of metadata. -/
def Metadata.text (m : Metadata) : String := (Value.object m.members).text

/-- The metadata of a vocabulary. -/
def metadata (v : Vocabulary) : Metadata := ⟨v.kind, some v.size, v.addsSpace, some v.stopIds⟩

/-- The serialized form of a vocabulary. -/
def serialize (v : Vocabulary) : String :=
  (Value.object ([("version", .string payloadVersion),
    ("encoded_vocab", .array (v.tokens.toList.map .string))] ++ v.metadata.members)).text

/-! ## Reading -/

def readKind (v : Value) : Except Fault Kind :=
  match Payload.below? 256 v with
  | none => .error .shape
  | some n =>
    match Kind.ofNat? n with
    | some kind => .ok kind
    | none => .error (.unknownKind n)

/-- The metadata read so far, part by part. -/
structure PartialMetadata where
  kind : Option Kind
  size : Option (Option Nat)
  addsSpace : Option Bool
  stopIds : Option (Option (List Nat))

/-- Reads one part; parts that are not known are overlooked. -/
def PartialMetadata.read (m : PartialMetadata) (name : String) (v : Value) :
    Except Fault PartialMetadata :=
  let orShape {α : Type} (o : Option α) : Except Fault α :=
    match o with
    | some a => .ok a
    | none => .error .shape
  if name = "vocab_type" then do return { m with kind := some (← readKind v) }
  else if name = "vocab_size" then do
    return { m with size := some (← orShape (optional? size? (some v))) }
  else if name = "add_prefix_space" then do
    return { m with addsSpace := some (← orShape (bool? v)) }
  else if name = "stop_token_ids" then do
    return { m with stopIds := some (← orShape (optional? (list? word?) (some v))) }
  else .ok m

/-- Reads metadata from their parts, in the order in which they are written. -/
def readMetadata (parts : List (String × Value)) : Except Fault Metadata := do
  let m ← parts.foldlM (fun m (name, v) => PartialMetadata.read m name v) ⟨none, none, none, none⟩
  match m.kind with
  | none => throw .shape
  | some kind => return ⟨kind, m.size.join, m.addsSpace.getD false, m.stopIds.join⟩

/-- Reads metadata written as an object or as the list of their parts. -/
def readMetadataValue : Value → Except Fault Metadata
  | .object members => readMetadata members
  | .array items =>
    if 4 < items.length then
      (readMetadata (["vocab_type", "vocab_size", "add_prefix_space", "stop_token_ids"].zip
        items)).bind fun _ => .error .shape
    else
      readMetadata
        (["vocab_type", "vocab_size", "add_prefix_space", "stop_token_ids"].zip items)
  | _ => .error .shape

/-- The vocabulary of token strings as metadata say. -/
def ofMetadata (tokens : List String) (m : Metadata) : Except Fault Vocabulary :=
  ofTokens tokens m.kind m.size (.ofOption m.stopIds) m.addsSpace

/-- The vocabulary of token strings as a metadata text says. -/
def ofMetadataText (tokens : List String) (text : String) : Except Error Vocabulary :=
  match Json.parse? text with
  | none => .error .notJson
  | some v => do
    let m ← (readMetadataValue v).mapError .tokenizer
    (ofMetadata tokens m).mapError .tokenizer

/-- The vocabulary that a serialized form describes. -/
def deserialize (text : String) : Except Error Vocabulary := do
  let v ← Payload.parse text
  match required? (list? string?) (v.member? "encoded_vocab") with
  | none => throw (.payload .shape)
  | some tokens =>
    let m ← (readMetadataValue v).mapError fun f => .payload (.vocabulary f)
    (ofMetadata tokens m).mapError fun f => .payload (.vocabulary f)

/-! ## Descriptions of tokenizers -/

/-- A component and the components listed in it. -/
def components (v : Value) : List Value :=
  v :: ["decoders", "normalizers", "pretokenizers"].flatMap fun key =>
    match v.member? key with
    | some (.array items) => items
    | _ => []

/-- The text under a key. -/
def textUnder? (v : Value) (key : String) : Option String :=
  match v.member? key with
  | some (.string s) => some s
  | _ => none

/-- Whether a component or one listed in it is of a type. -/
def hasComponent (v : Value) (type_ : String) : Bool :=
  (components v).any fun c => textUnder? c "type" = some type_

/-- Whether a component puts a space before a text. -/
def prependsSpace (v : Value) : Bool :=
  (components v).any fun c =>
    match textUnder? c "type" with
    | some "Prepend" => textUnder? c "prepend" = some "\u2581"
    | some "Metaspace" =>
      (match c.member? "add_prefix_space" with
        | some (.bool true) => true
        | _ => false) ||
      textUnder? c "prepend_scheme" = some "always" || textUnder? c "prepend_scheme" = some "first"
    | _ => false

/-- The metadata that the description of a tokenizer tells. -/
def Metadata.ofDescription (v : Value) : Metadata :=
  let part := fun key => (v.member? key).getD .null
  let kind :=
    if hasComponent (part "decoder") "ByteLevel" then .byteLevel
    else if hasComponent (part "decoder") "ByteFallback" then .byteFallback
    else .raw
  ⟨kind, none, prependsSpace (part "normalizer") || prependsSpace (part "pre_tokenizer"), none⟩

/-- The text of the metadata that the text of a description tells. -/
def metadataOfDescription (text : String) : Except Error String :=
  match Json.parse? text with
  | none => .error .notJson
  | some v => .ok (Metadata.ofDescription v).text

end ConstrainedDecoding.Vocabulary
