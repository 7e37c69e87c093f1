import ConstrainedDecoding.Proofs.CharLanguages
import ConstrainedDecoding.Regex.Classes
import ConstrainedDecoding.Text.Hexadecimal

/-!
# The syntax of patterns

The characters of a pattern describe the texts that it matches in full. This is said by the parts
that a pattern can be taken apart into, without the order in which a reader goes through them.
-/
namespace ConstrainedDecoding.Regex

/-! ## Characters and escapes -/

/-- Hexadecimal digits spell a number. -/
def Hex (ds : List Char) (n : Nat) : Prop := (∀ d ∈ ds, Text.isHex d = true) ∧ Text.hexNumber ds = n

/-- The letters that stand for one control character after a backslash. -/
def controls : List (Char × Nat) :=
  [('n', 0x0a), ('r', 0x0d), ('t', 0x09), ('f', 0x0c), ('v', 0x0b), ('0', 0x00)]

/-- The letters that stand for a class after a backslash. -/
def shorthands : List (Char × CharClass) :=
  [('d', ⟨false, digitRanges⟩), ('D', ⟨true, digitRanges⟩), ('w', ⟨false, wordRanges⟩),
    ('W', ⟨true, wordRanges⟩), ('s', ⟨false, spaceRanges⟩), ('S', ⟨true, spaceRanges⟩)]

/-- The letters that do not stand for themselves after a backslash, wherever that is. -/
def letters : List Char := 'x' :: 'u' :: (controls.map Prod.fst ++ shorthands.map Prod.fst)

/-- What follows a backslash spells a code point. A character stands for itself unless it is one of
`letters` or of `others`. -/
inductive Escaped (others : List Char) : List Char → Nat → Prop
  | control {e n} : (e, n) ∈ controls → Escaped others [e] n
  | byte {ds n} : ds.length = 2 → Hex ds n → Escaped others ('x' :: ds) n
  | short {ds n} : ds.length = 4 → Hex ds n → Escaped others ('u' :: ds) n
  | braced {ds n} : ds ≠ [] → Hex ds n → n ≤ 0x10ffff →
      Escaped others ('u' :: '\x7b' :: (ds ++ ['\x7d'])) n
  | own {e} : e ∉ letters → e ∉ others → Escaped others [e] e.toNat

/-- The letters of escapes outside brackets that there are no patterns for: word boundaries,
properties and references. -/
def refused : List Char :=
  ['b', 'B'] ++ (['p', 'P'] ++ (['1', '2', '3', '4', '5', '6', '7', '8', '9'] ++ ['k']))

/-! ## Classes -/

/-- A code point as it stands in brackets. -/
inductive Point : List Char → Nat → Prop
  | plain {c} : c ≠ '\\' → Point [c] c.toNat
  | backspace : Point ['\\', 'b'] 0x08
  | escaped {cs n} : Escaped ['b', 'p', 'P'] cs n → Point ('\\' :: cs) n

/-- The members of a class, with the closing bracket. A bracket in first place is a member. -/
inductive Members : (first : Bool) → List Char → Set Char → Prop
  | close : Members false [']'] ∅
  | shorthand {first e set cs S} : (e, set) ∈ shorthands → Members false cs S →
      Members first ('\\' :: e :: cs) (set.chars ∪ S)
  | range {first ps m qs n cs S} : Point ps m → (ps = [']'] → first = true) → Point qs n →
      qs ≠ [']'] → m ≤ n → Members false cs S →
      Members first (ps ++ '-' :: (qs ++ cs)) ({c | m ≤ c.toNat ∧ c.toNat ≤ n} ∪ S)
  | single {first ps n cs S} : Point ps n → (ps = [']'] → first = true) →
      (∀ c rest, cs = '-' :: c :: rest → c = ']') → Members false cs S →
      Members first (ps ++ cs) ({c | c.toNat = n} ∪ S)

/-! ## Quantifiers and groups -/

/-- The greatest number of times that can be written. -/
def timesLimit : Nat := 0xFFFFFFFF

/-- Decimal digits spell a number of times. -/
def Digits (ds : List Char) (n : Nat) : Prop :=
  ds ≠ [] ∧ (∀ d ∈ ds, d.isDigit = true) ∧ Nat.ofDigitChars 10 ds 0 = n ∧ n ≤ timesLimit

/-- A quantifier asks for at least so many times, and for at most so many if there is a bound. -/
inductive Times : List Char → Nat → Option Nat → Prop
  | star : Times ['*'] 0 none
  | plus : Times ['+'] 1 none
  | question : Times ['?'] 0 (some 1)
  | exactly {ds n} : Digits ds n → Times ('\x7b' :: (ds ++ ['\x7d'])) n (some n)
  | atLeast {ds n} : Digits ds n → Times ('\x7b' :: (ds ++ [',', '\x7d'])) n none
  | between {ds m es n} : Digits ds m → Digits es n → m ≤ n →
      Times ('\x7b' :: (ds ++ ',' :: (es ++ ['\x7d']))) m (some n)

/-- A brace and a digit: what starts here is a quantifier if an atom stands before it. -/
def StartsCount (cs : List Char) : Prop := ∃ d rest, cs = '\x7b' :: d :: rest ∧ d.isDigit = true

/-- What may stand between the opening parenthesis of a group and its contents. -/
inductive GroupHead : List Char → Prop
  | capturing : GroupHead []
  | plain : GroupHead ['?', ':']
  | named {name} : '>' ∉ name → (∀ c ∈ name.head?, c ≠ '=' ∧ c ≠ '!') →
      GroupHead ('?' :: '<' :: (name ++ ['>']))

/-! ## Patterns -/

/-- The characters that do not stand for themselves. -/
def specials : List Char := ['(', ')', '[', '|', '.', '\\', '*', '+', '?', '^', '$']

/-- The parts of a pattern. -/
inductive Part
  | atom
  | sequence
  | alternation

/-- Characters are a part of a pattern that matches the texts of a language. -/
inductive Describes : Part → List Char → Language Char → Prop
  | char {c} : c ∉ specials → Describes .atom [c] {[c]}
  | dot : Describes .atom ['.'] (Language.single (CharClass.chars ⟨true, lineBreakRanges⟩))
  | shorthand {e set} : (e, set) ∈ shorthands → Describes .atom ['\\', e] (Language.single set.chars)
  | escaped {cs c} : Escaped refused cs c.toNat → Describes .atom ('\\' :: cs) {[c]}
  | oneOf {cs S} : cs.head? ≠ some '^' → Members true cs S → Describes .atom ('[' :: cs) (Language.single S)
  | noneOf {cs S} : Members true cs S → Describes .atom ('[' :: '^' :: cs) (Language.single Sᶜ)
  | group {head cs K} : GroupHead head → Describes .alternation cs K →
      Describes .atom ('(' :: (head ++ (cs ++ [')']))) K
  | nil : Describes .sequence [] 1
  | item {cs K ds K'} : Describes .atom cs K → ¬ StartsCount ds → Describes .sequence ds K' →
      Describes .sequence (cs ++ ds) (K * K')
  /-- A quantifier applies to the one atom before it, and is followed by its lazy mark, if it has
  one. -/
  | repeated {cs K qs least most mark ds K'} : Describes .atom cs K → Times qs least most →
      mark ∈ [[], ['?']] → Describes .sequence ds K' →
      Describes .sequence (cs ++ (qs ++ (mark ++ ds))) (Language.copies K least most * K')
  | only {cs K} : Describes .sequence cs K → Describes .alternation cs K
  | bar {cs K ds K'} : Describes .sequence cs K → Describes .alternation ds K' →
      Describes .alternation (cs ++ '|' :: ds) (K + K')

/-- A whole pattern matches the texts of a language. A caret at its start and a dollar sign at its
end mean nothing. -/
def Matches (cs : List Char) (K : Language Char) : Prop :=
  ∃ start ∈ [[], ['^']], ∃ body, ∃ finish ∈ [[], ['$']],
    Describes .alternation body K ∧ cs = start ++ (body ++ finish)

end ConstrainedDecoding.Regex
