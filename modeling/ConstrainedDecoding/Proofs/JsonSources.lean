import ConstrainedDecoding.Proofs.JsonTexts
import ConstrainedDecoding.Proofs.Sources
import ConstrainedDecoding.Schema.Productions

/-!
# Sources of JSON tokens

The sources for white space, numbers and the characters of strings describe what the standard has for
them.
-/
namespace ConstrainedDecoding.Schema

open Ebnf Computability

variable {K : Meaning} {known : String → Prop}

/-! ## Classes -/

theorem readable_classOf {ranges : List (Char × Char)} (h : ∀ r ∈ ranges, r.1 ≤ r.2) :
    Readable known .element (classOf ranges) := by
  refine formed_charClass.2 (ClassStyle.writes_numbered fun r hr => ?_)
  obtain ⟨r, hmem, rfl⟩ := List.mem_map.1 hr
  simpa [UInt32.le_iff_toNat_le, Char.le_def] using h r hmem

@[simp] theorem readable_sequence_classOf {ranges : List (Char × Char)} :
    Readable known .sequence (classOf ranges) ↔ Readable known .element (classOf ranges) := by
  simp [classOf]

@[simp] theorem writes_blanks :
    ClassStyle.printed.Writes ⟨false, [(0x20, 0x20), (9, 9), (10, 10), (13, 13)]⟩ :=
  ClassStyle.writes_printed (by simp)

theorem writes_unescaped {ranges : List (UInt32 × UInt32)}
    (h : ranges.Perm [(0x00, 0x1f), (0x22, 0x22), (0x5c, 0x5c)]) : ClassStyle.numbered.Writes ⟨true, ranges⟩ :=
  ClassStyle.writes_numbered (by simp [h.mem_iff])

@[simp] theorem readable_digit : Readable known .element digit := readable_classOf (by simp)

@[simp] theorem readable_naturalSource : Readable known .element naturalSource := by
  have nonzero : Readable known .element (classOf [('1', '9')]) := readable_classOf (by simp)
  simp [naturalSource, nonzero]

@[simp] theorem readable_numberSource : Readable known .sequence numberSource := by
  have exponent : Readable known .element (classOf [('e', 'e'), ('E', 'E')]) := readable_classOf (by simp)
  simp [numberSource, exponent, readable_naturalSource.toSequence, ClassStyle.writes_signs]

/-- The characters of some ranges. -/
def between (ranges : List (Char × Char)) : Set Char := {c | ∃ r ∈ ranges, r.1 ≤ c ∧ c ≤ r.2}

theorem chars_ofRanges (ranges : List (Char × Char)) : CharClass.chars
    ⟨false, ranges.map fun (a, b) => (UInt32.ofNat a.toNat, UInt32.ofNat b.toNat)⟩ = between ranges := by
  ext c
  simp [CharClass.mem_chars, between, Char.le_def, UInt32.le_iff_toNat_le]

@[simp] theorem language_classOf (ranges : List (Char × Char)) :
    (classOf ranges).language K = Language.single (between ranges) := by
  rw [classOf, Source.language_charClass, chars_ofRanges]

theorem char_toNat_eq {c : Char} {n : Nat} (h : n.isValidChar) : c.toNat = n ↔ c = Char.ofNat n := by
  rw [← Char.toNat_inj, toNat_charOfNat h]

@[simp] theorem chars_blanks :
    CharClass.chars ⟨false, [(0x20, 0x20), (9, 9), (10, 10), (13, 13)]⟩ = {' ', '\t', '\n', '\r'} := by
  have := chars_ofRanges [(' ', ' '), ('\t', '\t'), ('\n', '\n'), ('\r', '\r')]
  refine this.trans ?_
  ext c
  simp [between, ← le_antisymm_iff, eq_comm]

@[simp] theorem chars_signs : CharClass.chars ⟨false, [(0x2b, 0x2b), (0x2d, 0x2d)]⟩ = {'+', '-'} := by
  refine (chars_ofRanges [('+', '+'), ('-', '-')]).trans ?_
  ext c
  simp [between, ← le_antisymm_iff, eq_comm]

theorem between_digit : between [('0', '9')] = {c | c.isDigit = true} := by
  ext c
  simp [between, Char.isDigit, Char.le_def]

theorem between_hexDigit : between [('0', '9'), ('a', 'f'), ('A', 'F')] =
    {c | c.isDigit = true ∨ ('a' ≤ c ∧ c ≤ 'f') ∨ ('A' ≤ c ∧ c ≤ 'F')} := by
  ext c
  simp [between, Char.isDigit, Char.le_def]

/-- The characters that may stand for themselves in a string, as what a class leaves out. -/
theorem chars_unescaped {ranges : List (UInt32 × UInt32)}
    (h : ranges.Perm [(0x00, 0x1f), (0x22, 0x22), (0x5c, 0x5c)]) :
    CharClass.chars ⟨true, ranges⟩ = {c | 0x20 ≤ c.toNat ∧ c ≠ '"' ∧ c ≠ '\\'} := by
  ext c
  have quote : c = '"' ↔ c.toNat = 0x22 := (char_toNat_eq (by decide)).symm
  have backslash : c = '\\' ↔ c.toNat = 0x5c := (char_toNat_eq (by decide)).symm
  simp [CharClass.mem_chars, h.mem_iff, quote, backslash]
  omega

/-! ## Numbers -/

@[simp] theorem language_digit : digit.language K = Json.Standard.digit := by
  rw [digit, language_classOf, between_digit, Json.Standard.digit]

theorem language_naturalSource : naturalSource.language K = Json.Standard.natural := by
  have nonzero : between [('1', '9')] = {c | '1' ≤ c ∧ c ≤ '9'} := by
    ext c
    simp [between]
  simp [naturalSource, nonzero, Json.Standard.natural]

theorem language_numberSource : numberSource.language K = Json.Standard.number := by
  have exponent : between [('e', 'e'), ('E', 'E')] = {'e', 'E'} := by
    ext c
    simp [between, ← le_antisymm_iff, eq_comm]
  simp [numberSource, language_naturalSource, exponent, Json.Standard.number, Json.Standard.digits, mul_assoc]

/-! ## Strings -/

/-- The alternatives for a character inside a string. -/
def charAlternatives : List Source :=
  [.charClass .numbered ⟨true, [(0x00, 0x1f), (0x22, 0x22), (0x5c, 0x5c)]⟩,
    .sequence [.literal "\\",
      .group [classOf (['"', '\\', '/', 'b', 'f', 'n', 'r', 't'].map fun c => (c, c)),
        .sequence [.literal "u", .quantified (classOf [('0', '9'), ('a', 'f'), ('A', 'F')]) (.exactly 4)]]]]

/-- A string of characters that a rule describes. -/
def quotedStar (char : String) : Source :=
  .sequence [.literal "\"", .quantified (.name char) .star, .literal "\""]

theorem language_charAlternatives : Source.choiceLanguage K charAlternatives = Json.Standard.char := by
  have escapes : between [('"', '"'), ('\\', '\\'), ('/', '/'), ('b', 'b'), ('f', 'f'), ('n', 'n'), ('r', 'r'),
      ('t', 't')] = {'"', '\\', '/', 'b', 'f', 'n', 'r', 't'} := by
    ext c
    simp [between, ← le_antisymm_iff, eq_comm]
  simp [charAlternatives, chars_unescaped, escapes, between_hexDigit, Json.Standard.char, Json.Standard.escape]

theorem language_quotedStar {char : String} (h : K char = Json.Standard.char) :
    (quotedStar char).language K = Json.Standard.string := by
  simp [quotedStar, h, Json.Standard.string, mul_assoc]

end ConstrainedDecoding.Schema
