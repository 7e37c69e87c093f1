import ConstrainedDecoding.Proofs.CharLanguages

/-!
# JSON texts

The texts of JSON values as RFC 8259 has them, with no white space around the whole value. What may
stand before a comma is a parameter: the standard allows any white space there. The texts of values
are the least language that goes with one equation, in which containers are put together from the
texts inside them.
-/
namespace ConstrainedDecoding.Json.Standard

open Computability

/-! ## Tokens -/

/-- Nothing, or a text of a language. -/
abbrev optional (K : Language Char) : Language Char := 1 + K

/-- White space. -/
def blanks : Language Char := (Language.single {' ', '\t', '\n', '\r'})∗

def digit : Language Char := Language.single {c | c.isDigit = true}

/-- One or more digits. -/
def digits : Language Char := digit * digit∗

/-- Digits that do not start with a zero, or a single zero. -/
def natural : Language Char := {['0']} + Language.single {c | '1' ≤ c ∧ c ≤ '9'} * digit∗

/-- The texts of numbers. -/
def number : Language Char :=
  optional {['-']} * natural * optional ({['.']} * digits) *
    optional (Language.single {'e', 'E'} * optional (Language.single {'+', '-'}) * digits)

/-- What may stand after a backslash. -/
def escape : Language Char :=
  Language.single {'"', '\\', '/', 'b', 'f', 'n', 'r', 't'} +
    {['u']} * Language.single {c | c.isDigit = true ∨ ('a' ≤ c ∧ c ≤ 'f') ∨ ('A' ≤ c ∧ c ≤ 'F')} ^ 4

/-- A character inside a string: any but quotes, backslashes and controls, or an escape. -/
def char : Language Char :=
  Language.single {c | 0x20 ≤ c.toNat ∧ c ≠ '"' ∧ c ≠ '\\'} + {['\\']} * escape

/-- The texts of strings. -/
def string : Language Char := {['"']} * char∗ * {['"']}

/-! ## Values -/

/-- The parts of a text that values stand in. -/
inductive Part
  | value
  | member
  /-- Parts with commas between them, and with white space around them. -/
  | list (part : Part)

/-- A text is a part of a JSON text in which only `gap` may stand before a comma. -/
inductive Spelled (gap : Language Char) : Part → List Char → Prop
  | word {w} : w ∈ ["true", "false", "null"] → Spelled gap .value w.toList
  | number {text} : text ∈ number → Spelled gap .value text
  | string {text} : text ∈ string → Spelled gap .value text
  | emptyArray {w} : w ∈ blanks → Spelled gap .value ('[' :: (w ++ [']']))
  | array {text} : Spelled gap (.list .value) text → Spelled gap .value ('[' :: (text ++ [']']))
  | emptyObject {w} : w ∈ blanks → Spelled gap .value ('\x7b' :: (w ++ ['\x7d']))
  | object {text} : Spelled gap (.list .member) text →
      Spelled gap .value ('\x7b' :: (text ++ ['\x7d']))
  | member {key w w' text} : key ∈ Standard.string → w ∈ blanks → w' ∈ blanks → Spelled gap .value text →
      Spelled gap .member (key ++ (w ++ ':' :: (w' ++ text)))
  | last {part w text w'} : w ∈ blanks → Spelled gap part text → w' ∈ blanks →
      Spelled gap (.list part) (w ++ (text ++ w'))
  | more {part w text w' rest} : w ∈ blanks → Spelled gap part text → w' ∈ gap →
      Spelled gap (.list part) rest → Spelled gap (.list part) (w ++ (text ++ (w' ++ ',' :: rest)))

/-- The texts of values in which only `gap` may stand before a comma. -/
def values (gap : Language Char) : Language Char := {text | Spelled gap .value text}

/-- The texts of JSON values. -/
abbrev texts : Language Char := values blanks

@[simp] theorem blanks_mul_blanks : blanks * blanks = blanks := kstar_mul_kstar _

/-! ## The equation of values -/

/-- Texts of a language with commas between them. -/
def listOf (gap K : Language Char) : Language Char := K * (gap * {[',']} * blanks * K)∗

/-- White space may stand around a list and inside an empty one. -/
theorem blanks_listOf (gap K : Language Char) :
    blanks * (1 + listOf gap K) * blanks = blanks + blanks * listOf gap K * blanks := by
  rw [mul_add, mul_one, add_mul, blanks_mul_blanks]

/-- White space before the texts of a list is as good as white space before the list. -/
theorem blanks_listOf_blanks (gap K : Language Char) :
    blanks * listOf gap (blanks * K) = blanks * listOf gap K := by
  simp only [listOf, ← mul_assoc, blanks_mul_blanks]
  simp only [mul_assoc (gap * {[',']}), blanks_mul_blanks]

/-- The texts of a part, given those of values. -/
def Part.language (gap K : Language Char) : Part → Language Char
  | .value => K
  | .member => Standard.string * blanks * {[':']} * blanks * K
  | .list part => blanks * listOf gap (part.language gap K) * blanks

/-- The texts of values, given those of the values inside them. -/
def step (gap K : Language Char) : Language Char :=
  {"true".toList} + {"false".toList} + {"null".toList} + number + string +
    {['[']} * (blanks + (Part.list .value).language gap K) * {[']']} +
    {['\x7b']} * (blanks + (Part.list .member).language gap K) * {['\x7d']}

section

variable {gap K : Language Char} {text : List Char}

theorem nil_mem_blanks : [] ∈ blanks := Language.nil_mem_kstar _

theorem mem_enclosed {a b : Char} {L : Language Char} :
    text ∈ ({[a]} : Language Char) * L * {[b]} ↔ ∃ inner ∈ L, text = a :: (inner ++ [b]) := by
  constructor
  · rintro ⟨_, ⟨_, rfl, inner, hinner, rfl⟩, _, rfl, rfl⟩
    exact ⟨inner, hinner, rfl⟩
  · rintro ⟨inner, hinner, rfl⟩
    exact ⟨a :: inner, ⟨[a], rfl, inner, hinner, rfl⟩, [b], rfl, rfl⟩

theorem mem_step : text ∈ step gap K ↔
    (∃ w ∈ ["true", "false", "null"], text = w.toList) ∨ text ∈ number ∨ text ∈ string ∨
      (∃ inner ∈ blanks + (Part.list .value).language gap K, text = '[' :: (inner ++ [']'])) ∨
      ∃ inner ∈ blanks + (Part.list .member).language gap K, text = '\x7b' :: (inner ++ ['\x7d']) := by
  simp only [step, Language.mem_add, mem_enclosed, List.mem_cons, List.not_mem_nil, or_false,
    exists_eq_or_imp, exists_eq_left]
  rw [show text ∈ ({"true".toList} : Language Char) ↔ text = "true".toList from Iff.rfl,
    show text ∈ ({"false".toList} : Language Char) ↔ text = "false".toList from Iff.rfl,
    show text ∈ ({"null".toList} : Language Char) ↔ text = "null".toList from Iff.rfl]
  simp only [or_assoc]

/-- What is spelled as a part is described by any language that goes with the equation. -/
theorem Spelled.mem_language (hK : step gap K ≤ K) {part : Part} (h : Spelled gap part text) :
    text ∈ part.language gap K := by
  have value {text : List Char} (h : text ∈ step gap K) : text ∈ (Part.value).language gap K := hK h
  induction h with
  | word hw => exact value (mem_step.2 (Or.inl ⟨_, hw, rfl⟩))
  | number h => exact value (mem_step.2 (Or.inr (Or.inl h)))
  | string h => exact value (mem_step.2 (Or.inr (Or.inr (Or.inl h))))
  | emptyArray hw => exact value (mem_step.2 (Or.inr (Or.inr (Or.inr (Or.inl ⟨_, Or.inl hw, rfl⟩)))))
  | array _ ih => exact value (mem_step.2 (Or.inr (Or.inr (Or.inr (Or.inl ⟨_, Or.inr ih, rfl⟩)))))
  | emptyObject hw => exact value (mem_step.2 (Or.inr (Or.inr (Or.inr (Or.inr ⟨_, Or.inl hw, rfl⟩)))))
  | object _ ih => exact value (mem_step.2 (Or.inr (Or.inr (Or.inr (Or.inr ⟨_, Or.inr ih, rfl⟩)))))
  | @member key w w' text hkey hw hw' _ ih =>
    refine ⟨key ++ w ++ [':'] ++ w', ⟨key ++ w ++ [':'], ⟨key ++ w, ⟨key, hkey, w, hw, rfl⟩, [':'], rfl, rfl⟩,
      w', hw', rfl⟩, text, ih, by simp⟩
  | @last part w text w' hw _ hw' ih =>
    exact ⟨w ++ text, ⟨w, hw, text, ⟨text, ih, [], Language.nil_mem_kstar _, by simp⟩, rfl⟩, w', hw', by simp⟩
  | @more part w text w' rest hw _ hw' _ ih ihs =>
    obtain ⟨_, ⟨b, hb, _, ⟨first, hfirst, others, hothers, rfl⟩, rfl⟩, w'', hw'', rfl⟩ := ihs
    have next : w' ++ [','] ++ b ++ first ∈ gap * {[',']} * blanks * part.language gap K :=
      ⟨w' ++ [','] ++ b, ⟨w' ++ [','], ⟨w', hw', [','], rfl, rfl⟩, b, hb, rfl⟩, first, hfirst, rfl⟩
    have more : w' ++ [','] ++ b ++ first ++ others ∈ (gap * {[',']} * blanks * part.language gap K)∗ :=
      mul_kstar_le_kstar (a := gap * {[',']} * blanks * part.language gap K) ⟨_, next, _, hothers, rfl⟩
    exact ⟨w ++ (text ++ (w' ++ [','] ++ b ++ first ++ others)),
      ⟨w, hw, _, ⟨text, ih, _, more, rfl⟩, rfl⟩, w'', hw'', by simp⟩

/-- What a part describes is spelled as the part. -/
theorem language_le_spelled (gap : Language Char) (part : Part) :
    part.language gap (values gap) ≤ {text | Spelled gap part text} := by
  induction part with
  | value => exact le_rfl
  | member =>
    rintro _ ⟨_, ⟨_, ⟨_, ⟨key, hkey, w, hw, rfl⟩, _, rfl, rfl⟩, w', hw', rfl⟩, text, htext, rfl⟩
    simpa using Spelled.member hkey hw hw' htext
  | list part ih =>
    -- what may follow a part in a list
    let after : Language Char := {rest | ∀ w ∈ blanks, ∀ text, Spelled gap part text →
      Spelled gap (.list part) (w ++ (text ++ rest))}
    have ends : blanks ≤ after := fun w' hw' w hw text htext => .last hw htext hw'
    have goesOn : gap * {[',']} * blanks * part.language gap (values gap) * after ≤ after := by
      rintro _ ⟨_, ⟨_, ⟨_, ⟨w', hw', _, rfl, rfl⟩, b, hb, rfl⟩, next, hnext, rfl⟩, rest, hrest, rfl⟩ w hw text htext
      simpa using Spelled.more hw htext hw' (hrest b hb next (ih hnext))
    rintro _ ⟨_, ⟨w, hw, _, ⟨text, htext, others, hothers, rfl⟩, rfl⟩, w', hw', rfl⟩
    have := kstar_mul_le ends goesOn ⟨others, hothers, w', hw', rfl⟩ w hw text (ih htext)
    simpa using this

/-- The texts of values go with the equation. -/
theorem step_values_le (gap : Language Char) : step gap (values gap) ≤ values gap := by
  intro text htext
  rcases mem_step.1 htext with ⟨w, hw, rfl⟩ | h | h | ⟨inner, h | h, rfl⟩ | ⟨inner, h | h, rfl⟩
  · exact .word hw
  · exact .number h
  · exact .string h
  · exact .emptyArray h
  · exact .array (language_le_spelled gap _ h)
  · exact .emptyObject h
  · exact .object (language_le_spelled gap _ h)

/-- The texts of values are the least language that goes with the equation. -/
theorem values_le (hK : step gap K ≤ K) : values gap ≤ K := fun _ h => Spelled.mem_language hK h

theorem Part.language_mono {K' : Language Char} (h : K ≤ K') (part : Part) :
    part.language gap K ≤ part.language gap K' := by
  induction part with
  | value => exact h
  | member => exact mul_le_mul' le_rfl h
  | list part ih =>
    exact mul_le_mul' (mul_le_mul' le_rfl (mul_le_mul' ih (kstar_mono (mul_le_mul' le_rfl ih)))) le_rfl

/-- The values inside a short text of a part are short. -/
theorem Part.mem_language_shorter {n : Nat} (part : Part) : ∀ {text : List Char}, text.length < n →
    text ∈ part.language gap K → text ∈ part.language gap (K ⊓ {text | text.length < n}) := by
  induction part with
  | value => exact fun hlt h => ⟨h, hlt⟩
  | member =>
    rintro _ hlt ⟨u, hu, text, htext, rfl⟩
    rw [List.length_append] at hlt
    have hlt : text.length < n := by omega
    exact ⟨u, hu, text, ⟨htext, hlt⟩, rfl⟩
  | list part ih =>
    rintro _ hlt ⟨_, ⟨w, hw, _, ⟨text, htext, others, hothers, rfl⟩, rfl⟩, w', hw', rfl⟩
    simp only [List.length_append] at hlt
    refine ⟨_, ⟨w, hw, _, ⟨text, ih (by omega) htext, others, ?_, rfl⟩, rfl⟩, w', hw', rfl⟩
    obtain ⟨us, rfl, hus⟩ := Language.mem_kstar.1 hothers
    refine Language.mem_kstar.2 ⟨us, rfl, fun u hu => ?_⟩
    have hle : u.length ≤ us.flatten.length := (List.sublist_flatten_of_mem hu).length_le
    obtain ⟨v, hv, next, hnext, rfl⟩ := hus u hu
    rw [List.length_append] at hle
    exact ⟨v, hv, next, ih (by omega) hnext, rfl⟩

/-- The brackets of a container make the values inside it shorter than it is, so a language that goes
with the equation the other way describes no other values. -/
theorem le_values (hK : K ≤ step gap K) : K ≤ values gap := by
  intro text htext
  induction hn : text.length using Nat.strong_induction_on generalizing text with
  | _ n ih =>
    have short : K ⊓ {text | text.length < n} ≤ values gap := fun text h => ih text.length h.2 h.1 rfl
    have inside {part : Part} {inner : List Char} (hlt : inner.length < n)
        (h : inner ∈ part.language gap K) : inner ∈ part.language gap (values gap) :=
      part.language_mono short (part.mem_language_shorter hlt h)
    refine step_values_le gap (mem_step.2 ?_)
    rcases mem_step.1 (hK htext) with h | h | h | ⟨inner, h, rfl⟩ | ⟨inner, h, rfl⟩
    · exact Or.inl h
    · exact Or.inr (Or.inl h)
    · exact Or.inr (Or.inr (Or.inl h))
    · have hlt : inner.length < n := by simp at hn; omega
      exact Or.inr (Or.inr (Or.inr (Or.inl ⟨inner, h.imp_right (inside hlt), rfl⟩)))
    · have hlt : inner.length < n := by simp at hn; omega
      exact Or.inr (Or.inr (Or.inr (Or.inr ⟨inner, h.imp_right (inside hlt), rfl⟩)))

/-- More values are described if more may stand before commas. -/
theorem values_mono {gap' : Language Char} (h : gap ≤ gap') : values gap ≤ values gap' := by
  intro text htext
  change Spelled gap .value text at htext
  change Spelled gap' .value text
  generalize Part.value = part at htext
  induction htext with
  | word hw => exact .word hw
  | number htext => exact .number htext
  | string htext => exact .string htext
  | emptyArray hw => exact .emptyArray hw
  | array _ ih => exact .array ih
  | emptyObject hw => exact .emptyObject hw
  | object _ ih => exact .object ih
  | member hkey hw hw' _ ih => exact .member hkey hw hw' ih
  | last hw _ hw' ih => exact .last hw ih hw'
  | more hw _ hw' _ ih ihs => exact .more hw ih (h hw') ihs

theorem one_le_blanks : 1 ≤ blanks := one_le_kstar

/-- The texts of values are the only solution of the equation. -/
theorem eq_values (hK : K = step gap K) : K = values gap := le_antisymm (le_values hK.le) (values_le hK.ge)

end

/-! ## The characters of values -/

variable {S : Set Char}

theorem optional_le_textsOf {K : Language Char} (h : K ≤ Language.textsOf S) : optional K ≤ Language.textsOf S :=
  sup_le Language.one_le_textsOf h

/-- The characters of numbers are digits, signs, points and the letter for exponents. -/
theorem number_le_textsOf (hdigit : ∀ c : Char, c.isDigit = true → c ∈ S)
    (hother : ∀ c ∈ ['-', '+', '.', 'e', 'E'], c ∈ S) : number ≤ Language.textsOf S := by
  have single {T : Set Char} (h : ∀ c ∈ T, c.isDigit = true ∨ c ∈ ['-', '+', '.', 'e', 'E']) :
      Language.single T ≤ Language.textsOf S :=
    Language.single_le_textsOf fun c hc => (h c hc).elim (hdigit c) (hother c)
  have char {c : Char} (h : c.isDigit = true ∨ c ∈ ['-', '+', '.', 'e', 'E']) :
      ({[c]} : Language Char) ≤ Language.textsOf S := by
    rw [← Language.single_singleton]
    exact single (by simpa using h)
  have digit : digit ≤ Language.textsOf S := single fun _ hc => Or.inl hc
  have digits : digits ≤ Language.textsOf S := Language.mul_le_textsOf digit (Language.kstar_le_textsOf digit)
  have nonzero : Language.single {c | '1' ≤ c ∧ c ≤ '9'} ≤ Language.textsOf S := by
    refine single fun c hc => Or.inl ?_
    obtain ⟨hlo, hhi⟩ : '1' ≤ c ∧ c ≤ '9' := hc
    have hzero : '0' ≤ c := le_trans (by decide : '0' ≤ '1') hlo
    simpa [Char.isDigit, Char.le_def] using And.intro hzero hhi
  have natural : natural ≤ Language.textsOf S :=
    sup_le (char (by decide)) (Language.mul_le_textsOf nonzero (Language.kstar_le_textsOf digit))
  refine Language.mul_le_textsOf (Language.mul_le_textsOf (Language.mul_le_textsOf ?_ natural) ?_) ?_
  · exact optional_le_textsOf (char (by decide))
  · exact optional_le_textsOf (Language.mul_le_textsOf (char (by decide)) digits)
  · refine optional_le_textsOf (Language.mul_le_textsOf (Language.mul_le_textsOf ?_ ?_) digits)
    · exact single (by simp)
    · exact optional_le_textsOf (single (by simp))

/-- A value that starts with no quote or bracket has no space or comma in it. -/
theorem values_le_plain (gap : Language Char) : values gap ≤
    {text | (∃ c ∈ text.head?, c ∈ ['"', '[', '\x7b']) ∨ text ∈ Language.textsOf {c | c ≠ ' ' ∧ c ≠ ','}} := by
  refine values_le fun text h => ?_
  rcases mem_step.1 h with ⟨w, hw, rfl⟩ | h | ⟨_, ⟨_, rfl, u, -, rfl⟩, v, -, rfl⟩ | ⟨inner, -, rfl⟩ | ⟨inner, -, rfl⟩
  · right
    simp only [List.mem_cons, List.not_mem_nil, or_false] at hw
    have plain {w : String} (h : ∀ c ∈ w.toList, c ≠ ' ' ∧ c ≠ ',') :
        w.toList ∈ Language.textsOf {c | c ≠ ' ' ∧ c ≠ ','} := h
    rcases hw with rfl | rfl | rfl <;> exact plain (by simp)
  · right
    refine number_le_textsOf (fun c hc => ?_) (by simp) h
    constructor <;> rintro rfl <;> simp at hc
  · exact Or.inl ⟨'"', rfl, by simp⟩
  · exact Or.inl ⟨'[', rfl, by simp⟩
  · exact Or.inl ⟨'\x7b', rfl, by simp⟩

theorem integer_le_number : optional {['-']} * natural ≤ number := by
  have left (K : Language Char) : 1 ≤ optional K := le_add_right le_rfl
  calc optional {['-']} * natural = optional {['-']} * natural * 1 * 1 := by rw [mul_one, mul_one]
    _ ≤ number := mul_le_mul' (mul_le_mul' le_rfl (left _)) (left _)

theorem natural_le_number : natural ≤ number :=
  (le_mul_of_one_le_left' (le_add_right le_rfl)).trans integer_le_number

/-- What starts with a quote is a string, if it is a value. -/
theorem quoted_mem_values {gap : Language Char} {inner : List Char} :
    '"' :: (inner ++ ['"']) ∈ values gap ↔ inner ∈ char∗ := by
  constructor
  · intro h
    change Spelled gap .value _ at h
    generalize htext : '"' :: (inner ++ ['"']) = text at h
    cases h with
    | @word w hw =>
      simp only [List.mem_cons, List.not_mem_nil, or_false] at hw
      rcases hw with rfl | rfl | rfl <;> simp at htext
    | number h =>
      subst htext
      have plain : number ≤ Language.textsOf {c | c ≠ '"'} :=
        number_le_textsOf (fun c hc => by rintro rfl; simp at hc) (by simp)
      exact absurd rfl (plain h '"' List.mem_cons_self)
    | string h =>
      obtain ⟨inner', hinner', rfl⟩ := mem_enclosed.1 h
      obtain ⟨rfl, -⟩ := List.append_inj' (List.cons.inj htext).2 rfl
      exact hinner'
    | emptyArray | array | emptyObject | object => simp at htext
  · exact fun h => .string (mem_enclosed.2 ⟨inner, h, rfl⟩)

/-- What stands in a string does not start with a quote. -/
theorem quote_notMem_char {rest : List Char} : '"' :: rest ∉ char∗ := by
  intro h
  obtain ⟨_ | ⟨first, others⟩, heq, hchars⟩ := Language.mem_kstar_iff_exists_nonempty.1 h
  · simp at heq
  obtain ⟨⟨hfirst, hne⟩, -⟩ := List.forall_mem_cons.1 hchars
  rcases hfirst with ⟨c, ⟨-, hquote, -⟩, rfl⟩ | ⟨_, rfl, _, -, rfl⟩
  · exact hquote (List.cons.inj heq).1.symm
  · simp at heq

/-- A list with a space before its comma is a value. -/
theorem spacedComma_mem_texts : "[1 ,2]".toList ∈ texts := by
  have digit {c : Char} (h : '1' ≤ c ∧ c ≤ '9') : Spelled blanks .value [c] :=
    .number (natural_le_number (Or.inr ⟨[c], ⟨c, h, rfl⟩, [], Language.nil_mem_kstar _, rfl⟩))
  have space : [' '] ∈ blanks := Language.mem_kstar.2 ⟨[[' ']], rfl, by simp [Language.mem_single]⟩
  have two : Spelled blanks .value ['2'] := digit (by decide)
  have last : Spelled blanks (.list .value) ['2'] := .last nil_mem_blanks two nil_mem_blanks
  exact .array (.more (w := []) nil_mem_blanks (digit (c := '1') (by decide)) space last)

/-- It is not among the values that have no white space before commas. -/
theorem spacedComma_notMem_values : "[1 ,2]".toList ∉ values 1 := by
  have blank {w : List Char} (hw : w ∈ blanks) : ∀ c ∈ w, c ∈ ({' ', '\t', '\n', '\r'} : Set Char) :=
    Language.kstar_le_textsOf (Language.single_le_textsOf le_rfl) hw
  have noBlank {w rest : List Char} (hw : w ∈ blanks) (heq : ['1', ' ', ',', '2'] = w ++ rest) : w = [] := by
    cases w with
    | nil => rfl
    | cons c w =>
      obtain ⟨rfl, -⟩ := List.cons.inj heq
      simpa using blank hw '1' List.mem_cons_self
  -- a value in front is the first digit, if it is anything
  have value {text rest : List Char} (h : Spelled 1 .value text) (heq : ['1', ' ', ',', '2'] = text ++ rest) :
      (text = [] ∧ rest = ['1', ' ', ',', '2']) ∨ text = ['1'] ∧ rest = [' ', ',', '2'] := by
    rcases text with _ | ⟨c, _ | ⟨c', text⟩⟩
    · exact Or.inl ⟨rfl, heq.symm⟩
    · obtain ⟨rfl, rfl⟩ := List.cons.inj heq
      exact Or.inr ⟨rfl, rfl⟩
    · simp only [List.cons_append, List.cons.injEq] at heq
      obtain ⟨rfl, rfl, -⟩ := heq
      rcases values_le_plain 1 h with ⟨c, ⟨⟩, hc⟩ | hplain
      · simp at hc
      · exact absurd rfl (hplain ' ' (by simp)).1
  intro h
  change Spelled 1 .value ['[', '1', ' ', ',', '2', ']'] at h
  generalize htext : ['[', '1', ' ', ',', '2', ']'] = text at h
  -- what is between the brackets is no list, and only an array has them around it
  cases h with
  | @word w hw =>
    simp only [List.mem_cons, List.not_mem_nil, or_false] at hw
    rcases hw with rfl | rfl | rfl <;> simp at htext
  | number h =>
    subst htext
    have plain : number ≤ Language.textsOf {c | c ≠ '['} :=
      number_le_textsOf (fun c hc => by rintro rfl; simp at hc) (by simp)
    exact plain h '[' List.mem_cons_self rfl
  | string h =>
    subst htext
    obtain ⟨_, ⟨_, rfl, u, -, rfl⟩, v, -, heq⟩ := h
    simp at heq
  | emptyArray hw =>
    obtain ⟨-, htext⟩ := List.cons.inj htext
    obtain ⟨rfl, -⟩ := List.append_inj' (show ['1', ' ', ',', '2'] ++ [']'] = _ from htext) rfl
    simpa using blank hw '1' List.mem_cons_self
  | @array inner h =>
    obtain ⟨-, htext⟩ := List.cons.inj htext
    obtain ⟨rfl, -⟩ := List.append_inj' (show ['1', ' ', ',', '2'] ++ [']'] = _ from htext) rfl
    generalize hlist : ['1', ' ', ',', '2'] = text at h
    cases h with
    | last hw h hw' =>
      obtain rfl := noBlank hw hlist
      obtain ⟨-, rfl⟩ | ⟨-, rfl⟩ := value h hlist
      · simpa using blank hw' '1' List.mem_cons_self
      · simpa using blank hw' ',' (by simp)
    | more hw h hw' =>
      obtain rfl := noBlank hw hlist
      obtain rfl := hw'
      obtain ⟨-, hrest⟩ | ⟨-, hrest⟩ := value h hlist <;> simp at hrest
  | emptyObject => simp at htext
  | object => simp at htext

end ConstrainedDecoding.Json.Standard
