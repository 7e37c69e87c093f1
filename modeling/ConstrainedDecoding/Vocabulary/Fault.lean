/-!
# Faults of vocabularies
-/
namespace ConstrainedDecoding.Vocabulary

/-- What is wrong with a vocabulary or its metadata. -/
inductive Fault
  | sizeBelowTokens (size tokens : Nat)
  | byteToken (token : String)
  | stopOutOfRange (id size : Nat)
  /-- The metadata names a kind of encoding that is not known. -/
  | unknownKind (n : Nat)
  /-- A part of the metadata is missing or of the wrong kind. -/
  | shape
  deriving DecidableEq

/-- The wording of a fault, where it has one. -/
def Fault.message : Fault → Option String
  | .sizeBelowTokens size tokens =>
    some s!"vocab_size ({size}) must be >= encoded_vocab.len() ({tokens})"
  | .byteToken token => some s!"invalid byte fallback token: {token}"
  | .stopOutOfRange id size =>
    some s!"stop token id {id} is out of range for vocab_size {size}"
  | .unknownKind n => some s!"unknown vocab_type {n}"
  | .shape => none

end ConstrainedDecoding.Vocabulary
