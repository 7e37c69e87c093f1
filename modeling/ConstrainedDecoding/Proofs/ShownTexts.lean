import ConstrainedDecoding.Proofs.Encodings
import ConstrainedDecoding.Proofs.Folds
import ConstrainedDecoding.Schema.Options

/-!
# Shown values are told apart

A shown value says itself where it ends, whatever stands behind it: a quoted text at the first quote that
no backslash escapes, a number at the bracket around it, and options at the brace behind their last field.
So different options are shown differently, also in front of any other text.
-/
namespace ConstrainedDecoding

/-- A way to write values that tells them apart: no written value, whatever follows it, goes on as another
one does. -/
def Delimited {α : Type} (write : α → List Char) : Prop :=
  ∀ ⦃a b : α⦄ ⦃r s : List Char⦄, write a ++ r = write b ++ s → a = b ∧ r = s

namespace Delimited

variable {α β : Type} {f : α → List Char} {g : β → List Char}

/-- What can be read back, whatever follows it, is told apart. -/
theorem of_read (read : List Char → Option (α × List Char)) (h : ∀ a r, read (f a ++ r) = some (a, r)) :
    Delimited f := by
  intro a b r s heq
  have := congrArg read heq
  rw [h, h, Option.some.injEq, Prod.mk.injEq] at this
  exact this

/-- A fixed text may stand in front. -/
theorem behind (w : List Char) (h : Delimited f) : Delimited fun a => w ++ f a := by
  intro a b r s heq
  rw [List.append_assoc, List.append_assoc] at heq
  exact h (List.append_cancel_left heq)

/-- One value after the other. -/
theorem append (hf : Delimited f) (hg : Delimited g) : Delimited fun x : α × β => f x.1 ++ g x.2 := by
  rintro ⟨a, b⟩ ⟨a', b'⟩ r s heq
  simp only [List.append_assoc] at heq
  obtain ⟨rfl, hrest⟩ := hf heq
  obtain ⟨rfl, rfl⟩ := hg hrest
  exact ⟨rfl, rfl⟩

/-- A fixed text may stand behind. -/
theorem before (w : List Char) (h : Delimited f) : Delimited fun a => f a ++ w := by
  intro a b r s heq
  rw [List.append_assoc, List.append_assoc] at heq
  obtain ⟨rfl, hrest⟩ := h heq
  exact ⟨rfl, List.append_cancel_left hrest⟩

/-- Values with the same parts are the same. -/
theorem comp (h : Delimited f) {parts : β → α} (hparts : Function.Injective parts) :
    Delimited fun b => f (parts b) := by
  intro a b r s heq
  obtain ⟨hab, rfl⟩ := h heq
  exact ⟨hparts hab, rfl⟩

end Delimited

/-! ## Quoted texts -/

namespace Text

/-- The character that stands behind a backslash for a control, a quote or a backslash. -/
def escaped (c : Char) : Char :=
  if c = 'n' then '\n' else if c = 'r' then '\r' else if c = 't' then '\t' else if c = '0' then '\x00' else c

/-- Reads a character as it stands in a quoted text. -/
def readQuoted? : List Char → Option (Char × List Char)
  | '\\' :: 'u' :: '\x7b' :: cs =>
    some (Char.ofNat (hexNumber (cs.takeWhile (· ≠ '\x7d'))), (cs.dropWhile (· ≠ '\x7d')).tail)
  | '\\' :: c :: cs => some (escaped c, cs)
  | c :: cs => some (c, cs)
  | [] => none

theorem readQuoted?_quotedChar (c : Char) (r : List Char) :
    readQuoted? ((quotedChar c).toList ++ r) = some (c, r) := by
  unfold quotedChar
  split_ifs with hquote hbackslash hline hreturn htab hzero hnumber
  · subst hquote
    rfl
  · subst hbackslash
    rfl
  · subst hline
    rfl
  · subst hreturn
    rfl
  · subst htab
    rfl
  · subst hzero
    rfl
  · have digits : ∀ d ∈ (hex 0 c.toNat).toList, decide (d ≠ '\x7d') = true := by
      intro d hd
      have : isHex d = true := isHex_of_mem_hex d hd
      refine decide_eq_true ?_
      rintro rfl
      revert this
      decide
    have spelled : ("\\u\x7b" ++ hex 0 c.toNat ++ "\x7d").toList ++ r =
        '\\' :: 'u' :: '\x7b' :: ((hex 0 c.toNat).toList ++ '\x7d' :: r) := by simp
    rw [spelled, readQuoted?, List.takeWhile_append_of_pos digits, List.dropWhile_append_of_pos digits]
    simp [hexNumber_hex]
  · have hread : readQuoted? (c :: r) = some (c, r) := by
      unfold readQuoted?
      split
      · rename_i heq
        exact absurd (List.cons.inj heq).1 hbackslash
      · rename_i heq
        exact absurd (List.cons.inj heq).1 hbackslash
      · rename_i heq
        obtain ⟨rfl, rfl⟩ := List.cons.inj heq
        rfl
      · rename_i heq
        cases heq
    simpa [Char.toString_eq_singleton] using hread

theorem delimited_quotedChar : Delimited fun c => (quotedChar c).toList :=
  .of_read readQuoted? readQuoted?_quotedChar

/-- No character of a quoted text starts as its end does. -/
theorem quotedChar_append_ne (c : Char) (r s : List Char) : (quotedChar c).toList ++ r ≠ '"' :: s := by
  intro heq
  have hread := readQuoted?_quotedChar c r
  rw [heq] at hread
  obtain ⟨rfl, rfl⟩ : '"' = c ∧ s = r := by simpa [readQuoted?] using hread
  have hfirst : '\\' :: '"' :: s = '"' :: s := heq
  exact absurd (List.cons.inj hfirst).1 (by decide)

theorem toList_quoted (s : String) :
    (quoted s).toList = ['"'] ++ (s.toList.flatMap fun c => (quotedChar c).toList) ++ ['"'] := by
  rw [quoted, String.toList_append, String.toList_append, String.foldl_eq_foldl_toList, toList_foldl_append]
  rfl

theorem delimited_quoted : Delimited fun s => (quoted s).toList := by
  have body (cs : List Char) : ∀ (ds r s : List Char),
      (cs.flatMap fun c => (quotedChar c).toList) ++ '"' :: r =
        (ds.flatMap fun c => (quotedChar c).toList) ++ '"' :: s → cs = ds ∧ r = s := by
    induction cs with
    | nil =>
      intro ds r s heq
      cases ds with
      | nil => exact ⟨rfl, (List.cons.inj heq).2⟩
      | cons d ds =>
        rw [List.flatMap_cons, List.append_assoc] at heq
        exact absurd heq.symm (quotedChar_append_ne d _ _)
    | cons c cs ih =>
      intro ds r s heq
      cases ds with
      | nil =>
        rw [List.flatMap_cons, List.append_assoc] at heq
        exact absurd heq (quotedChar_append_ne c _ _)
      | cons d ds =>
        rw [List.flatMap_cons, List.flatMap_cons, List.append_assoc, List.append_assoc] at heq
        obtain ⟨rfl, hrest⟩ := delimited_quotedChar heq
        obtain ⟨rfl, rfl⟩ := ih ds r s hrest
        exact ⟨rfl, rfl⟩
  intro a b r s heq
  simp only [toList_quoted, List.append_assoc, List.cons_append, List.nil_append] at heq
  obtain ⟨hchars, rfl⟩ := body _ _ _ _ (List.cons.inj heq).2
  exact ⟨String.toList_inj.1 hchars, rfl⟩

end Text

/-! ## Options -/

theorem delimited_flag : Delimited fun b : Bool => (toString b).toList := by
  have text (b : Bool) : (toString b).toList = if b then ['t', 'r', 'u', 'e'] else ['f', 'a', 'l', 's', 'e'] := by
    cases b <;> rfl
  intro a b r s heq
  simp only [text] at heq
  cases a <;> cases b <;> simp_all

theorem delimited_number : Delimited fun n : Nat => (toString n).toList ++ [')'] := by
  refine .of_read (fun cs => some (Nat.ofDigitChars 10 (cs.takeWhile Char.isDigit) 0,
    (cs.dropWhile Char.isDigit).tail)) fun n r => ?_
  have digits : ∀ c ∈ Nat.toDigits 10 n, c.isDigit = true :=
    fun c hc => Nat.isDigit_of_mem_toDigits (by decide) (by decide) hc
  have hn : (toString n).toList = Nat.toDigits 10 n := by simp
  rw [hn, List.append_assoc, List.takeWhile_append_of_pos digits, List.dropWhile_append_of_pos digits]
  simp [Nat.ofDigitChars_ten_toDigits]

namespace Schema

theorem delimited_shownOption {α : Type} {shown : α → String}
    (h : Delimited fun x => (shown x).toList ++ [')']) : Delimited fun o => (shownOption shown o).toList := by
  intro a b r s heq
  cases a with
  | none =>
    cases b with
    | none => exact ⟨rfl, List.append_cancel_left heq⟩
    | some y => simp [shownOption] at heq
  | some x =>
    cases b with
    | none => simp [shownOption] at heq
    | some y =>
      obtain ⟨hxy, rfl⟩ := h.behind "Some(".toList (by simpa [shownOption] using heq)
      exact ⟨congrArg some hxy, rfl⟩

theorem delimited_shownTexts : Delimited fun p => (shownTexts p).toList := by
  have h := ((Text.delimited_quoted.behind ['(']).append (Text.delimited_quoted.behind [',', ' '])).before [')']
  intro a b r s heq
  exact h (by simpa [shownTexts] using heq)

/-- Options are told apart by how they are shown. -/
theorem Options.delimited_shown : Delimited fun o : Options => o.shown.toList := by
  have numbers := delimited_shownOption delimited_number
  have texts := delimited_shownOption (delimited_shownTexts.before [')'])
  have fields := (delimited_flag.behind "JsonSchemaOptions \x7b any_whitespace: ".toList).append
    ((numbers.behind ", indent: ".toList).append ((texts.behind ", separators: ".toList).append
      ((delimited_flag.behind ", strict_mode: ".toList).append
        ((numbers.behind ", max_whitespace: ".toList).append (delimited_flag.behind ", debug_dump: ".toList)))))
  have parts : Function.Injective fun o : Options =>
      (o.anyWhitespace, o.indent, o.separators, o.strict, o.maxWhitespace, o.logged) := by
    rintro ⟨⟩ ⟨⟩ h
    simpa using h
  intro o o' r s heq
  have h := (fields.before " \x7d".toList).comp parts
  unfold Options.shown at heq
  exact h (by simpa only [String.toList_append, List.append_assoc] using heq)

/-- A line that shows options, and what follows it, are told apart. -/
theorem Options.shown_line_inj {o o' : Options} {text text' : String} :
    o.shown ++ "\n" ++ text = o'.shown ++ "\n" ++ text' ↔ o = o' ∧ text = text' := by
  constructor
  · intro h
    have lists := congrArg String.toList h
    rw [String.toList_append, String.toList_append, String.toList_append, String.toList_append,
      List.append_assoc, List.append_assoc] at lists
    obtain ⟨rfl, hrest⟩ := delimited_shown lists
    exact ⟨rfl, String.toList_inj.1 (List.append_cancel_left hrest)⟩
  · rintro ⟨rfl, rfl⟩
    rfl

example : (Options.mk false (some 2) none true none false).shown =
    "JsonSchemaOptions \x7b any_whitespace: false, indent: Some(2), separators: None, " ++
      "strict_mode: true, max_whitespace: None, debug_dump: false \x7d" := by decide +kernel

end Schema

end ConstrainedDecoding
