import ConstrainedDecoding.Proofs.SchemaLanguages

/-!
# No text of a schema is blank

Each text of a schema has a character that is not white space. So a container with parts does not read as an empty
one, whatever stands around the parts.
-/
namespace ConstrainedDecoding.Schema

open Computability
open Json (Value)

/-- White space. -/
def blankChars : Set Char := {' ', '\t', '\n', '\r'}

/-- The texts with a character that is not white space. -/
def visible : Language Char := {text | ∃ c ∈ text, c ∉ blankChars}

theorem Options.blanks_le (o : Options) : o.blanks ≤ Language.textsOf blankChars :=
  (Language.copies_le_kstar _ _ _).trans (Language.kstar_le_textsOf (Language.single_le_textsOf le_rfl))

section

variable {L L' : Language Char}

theorem mul_le_visible (h : L ≤ visible) : L * L' ≤ visible := by
  rintro _ ⟨u, hu, v, -, rfl⟩
  obtain ⟨c, hc, hblank⟩ := h hu
  exact ⟨c, List.mem_append_left _ hc, hblank⟩

theorem mul_le_visible' (h : L' ≤ visible) : L * L' ≤ visible := by
  rintro _ ⟨u, -, v, hv, rfl⟩
  obtain ⟨c, hc, hblank⟩ := h hv
  exact ⟨c, List.mem_append_right _ hc, hblank⟩

theorem add_le_visible (h : L ≤ visible) (h' : L' ≤ visible) : L + L' ≤ visible := sup_le h h'

theorem singleton_le_visible {text : List Char} {c : Char} (hc : c ∈ text) (hblank : c ∉ blankChars) :
    {text} ≤ visible := by
  rintro _ rfl
  exact ⟨c, hc, hblank⟩

/-- The words of JSON, and its opening brackets. -/
theorem token_le_visible {w : String} (h : w ∈ ["true", "false", "null", "[", "\x7b"]) : {w.toList} ≤ visible := by
  simp only [List.mem_cons, List.not_mem_nil, or_false] at h
  rcases h with rfl | rfl | rfl | rfl | rfl
  · exact singleton_le_visible (show 'e' ∈ "true".toList by simp) (by simp [blankChars])
  · exact singleton_le_visible (show 'e' ∈ "false".toList by simp) (by simp [blankChars])
  · exact singleton_le_visible (show 'n' ∈ "null".toList by simp) (by simp [blankChars])
  · exact singleton_le_visible (show '[' ∈ "[".toList by simp) (by simp [blankChars])
  · exact singleton_le_visible (show '\x7b' ∈ "\x7b".toList by simp) (by simp [blankChars])

theorem sum_le_visible {Ls : List (Language Char)} (h : ∀ L ∈ Ls, L ≤ visible) : Ls.sum ≤ visible := by
  induction Ls with
  | nil => exact bot_le
  | cons L Ls ih =>
    obtain ⟨hL, hLs⟩ := List.forall_mem_cons.1 h
    rw [List.sum_cons]
    exact add_le_visible hL (ih hLs)

theorem separated_le_visible {S : Language Char} {parts : List (Language Char)} (hne : parts ≠ [])
    (h : ∀ L ∈ parts, L ≤ visible) : Language.separated S parts ≤ visible := by
  obtain ⟨part, rest, rfl⟩ := List.exists_cons_of_ne_nil hne
  rw [Language.separated_cons]
  exact mul_le_visible (h part List.mem_cons_self)

end

/-! ## Containers -/

section

variable {l : Layout} {B : Language Char} {a b : String} {depth : Nat}

theorem exists_laid_opening (l : Layout) (B : Language Char) (a : String) (depth : Nat) :
    ∃ X, laid B (l.opening a depth) = {a.toList} * X := by
  cases l with
  | anyWhitespace => exact ⟨B, by simp [laid, Layout.opening, Layout.blanks]⟩
  | fixed _ _ indent =>
    cases indent with
    | none => exact ⟨1, by simp [laid, Layout.opening, Layout.newline?]⟩
    | some n =>
      refine ⟨{("\n" ++ String.ofList (List.replicate (n * (depth + 1)) ' ')).toList}, ?_⟩
      rw [Language.singleton_mul_singleton, ← String.toList_append]
      simp [laid, Layout.opening, Layout.newline?]

theorem exists_laid_closing (l : Layout) (B : Language Char) (b : String) (depth : Nat) :
    ∃ X, laid B (l.closing b depth) = X * {b.toList} := by
  cases l with
  | anyWhitespace => exact ⟨B, by simp [laid, Layout.closing, Layout.blanks]⟩
  | fixed _ _ indent =>
    cases indent with
    | none => exact ⟨1, by simp [laid, Layout.closing, Layout.newline?]⟩
    | some n =>
      refine ⟨{("\n" ++ String.ofList (List.replicate (n * depth) ' ')).toList}, ?_⟩
      rw [Language.singleton_mul_singleton, ← String.toList_append]
      simp [laid, Layout.closing, Layout.newline?]

theorem exists_laid_emptyContainer (hB : B ≤ Language.textsOf blankChars) (l : Layout) (a b : String) :
    ∃ W ≤ Language.textsOf blankChars, laid B (l.emptyContainer a b) = {a.toList} * W * {b.toList} := by
  cases l with
  | anyWhitespace => exact ⟨B, hB, by simp [laid, Layout.emptyContainer, Layout.blanks, mul_assoc]⟩
  | fixed =>
    refine ⟨1, Language.one_le_textsOf, ?_⟩
    simp [laid, Layout.emptyContainer, ← Language.singleton_mul_singleton]

theorem containerTexts_le_visible (hB : B ≤ Language.textsOf blankChars) (ha : {a.toList} ≤ visible)
    (parts : List (Language Char)) : containerTexts l B a b depth parts ≤ visible := by
  cases parts with
  | nil =>
    obtain ⟨W, -, heq⟩ := exists_laid_emptyContainer hB l a b
    rw [containerTexts, heq]
    exact mul_le_visible (mul_le_visible ha)
  | cons part parts =>
    obtain ⟨X, heq⟩ := exists_laid_opening l B a depth
    rw [containerTexts, heq]
    exact mul_le_visible (mul_le_visible (mul_le_visible ha))

theorem anyParts_le_visible (ha : {a.toList} ≤ visible) (part : Language Char) : anyParts l B a b part ≤ visible := by
  obtain ⟨X, heq⟩ := exists_laid_opening l B a 0
  rw [anyParts, heq]
  exact mul_le_visible (mul_le_visible (mul_le_visible ha))

/-- A container with parts that are not blank is no empty one. -/
theorem notMem_containerTexts_nil (hB : B ≤ Language.textsOf blankChars) {parts : List (Language Char)} (hne : parts ≠ [])
    (hparts : ∀ L ∈ parts, L ≤ visible) {text : List Char} (htext : text ∈ containerTexts l B a b depth parts) :
    text ∉ containerTexts l B a b depth [] := by
  intro hempty
  obtain ⟨X, hX⟩ := exists_laid_opening l B a depth
  obtain ⟨Y, hY⟩ := exists_laid_closing l B b depth
  obtain ⟨W, hW, heq⟩ := exists_laid_emptyContainer hB l a b
  rw [containerTexts_of_ne_nil hne, hX, hY] at htext
  rw [containerTexts, heq] at hempty
  obtain ⟨_, ⟨_, ⟨_, rfl, x, -, rfl⟩, s, hs, rfl⟩, _, ⟨y, -, _, rfl, rfl⟩, rfl⟩ := htext
  obtain ⟨_, ⟨_, rfl, w, hw, rfl⟩, _, rfl, hsame⟩ := hempty
  -- what stands between the brackets is blank, but it has a part inside
  have inside : a.toList ++ w = a.toList ++ (x ++ (s ++ y)) := List.append_cancel_right (by simpa using hsame)
  obtain rfl := List.append_cancel_left inside
  obtain ⟨c, hc, hblank⟩ := separated_le_visible hne hparts hs
  exact hblank (hW hw c (by simp [hc]))

/-- Where a container reads as an empty one, nothing has been chosen to be in it. -/
theorem nothing_chosen_of_empty {α : Type} (hB : B ≤ Language.textsOf blankChars) {f : α → Language Char}
    (hf : ∀ x, f x ≤ visible) {more : Option (Language Char)} (hmore : ∀ L ∈ more, L ≤ visible) {chosen : List α} {n : Nat}
    {text : List Char}
    (htext : text ∈ containerTexts l B a b depth (chosen.map f ++ List.replicate n (more.getD 0)))
    (hempty : text ∈ containerTexts l B a b depth []) : chosen = [] ∧ n = 0 := by
  have hnil : chosen.map f ++ List.replicate n (more.getD 0) = [] := by
    by_contra hne
    refine notMem_containerTexts_nil hB hne (fun L hL => ?_) htext hempty
    rcases List.mem_append.1 hL with hL | hL
    · obtain ⟨x, -, rfl⟩ := List.mem_map.1 hL
      exact hf x
    · rw [List.eq_of_mem_replicate hL]
      cases more with
      | none => exact bot_le
      | some M => exact hmore M rfl
  simpa using hnil

end

/-! ## Values -/

theorem digit_notMem_blankChars {c : Char} (h : c.isDigit = true) : c ∉ blankChars := by
  rintro (rfl | rfl | rfl | rfl) <;> simp at h

theorem natural_le_visible : Json.Standard.natural ≤ visible := by
  refine add_le_visible (singleton_le_visible (List.mem_singleton_self '0') (digit_notMem_blankChars rfl)) (mul_le_visible ?_)
  rintro _ ⟨c, ⟨hone, hnine⟩, rfl⟩
  refine ⟨c, List.mem_singleton_self c, digit_notMem_blankChars ?_⟩
  rw [Char.isDigit, Bool.and_eq_true, decide_eq_true_eq, decide_eq_true_eq]
  exact ⟨le_trans (by decide) hone, hnine⟩

theorem number_le_visible : Json.Standard.number ≤ visible :=
  mul_le_visible (mul_le_visible (mul_le_visible' natural_le_visible))

theorem quoted_le_visible (L : Language Char) : {['"']} * L * {['"']} ≤ visible :=
  mul_le_visible (mul_le_visible (singleton_le_visible (List.mem_singleton_self '"') (by simp [blankChars])))

/-- The text of a double has a point or an exponent. -/
theorem magnitudeText_mem_visible (x : Magnitude) : (Json.magnitudeText x).toList ∈ visible := by
  have positional (digits : String) (whole : Int) : (Json.positional digits whole).toList ∈ visible := by
    unfold Json.positional
    split_ifs <;> exact ⟨'.', by simp, by simp [blankChars]⟩
  have scientific (digits : String) (exponent : Int) : (Json.scientific digits exponent).toList ∈ visible :=
    ⟨'e', by simp [Json.scientific], by simp [blankChars]⟩
  unfold Json.magnitudeText
  split
  · exact ⟨'.', by simp, by simp [blankChars]⟩
  · dsimp only
    split
    · exact positional _ _
    · exact scientific _ _

/-- The text of a value is not blank. -/
theorem text_mem_visible (v : Value) : v.text.toList ∈ visible := by
  cases v with
  | null => exact ⟨'n', by simp [Value.text], by simp [blankChars]⟩
  | bool b => cases b <;> exact ⟨'e', by simp [Value.text], by simp [blankChars]⟩
  | number n =>
    rw [Value.text]
    cases n with
    | int z => exact number_le_visible (Json.int_mem_number z)
    | double negative x =>
      obtain ⟨c, hc, hblank⟩ := magnitudeText_mem_visible x
      exact ⟨c, by simp [Json.Number.text, hc], hblank⟩
  | string s =>
    rw [Value.text]
    exact ⟨'"', by simp [Json.toList_stringText], by simp [blankChars]⟩
  | array items => exact ⟨'[', by simp [Value.text], by simp [blankChars]⟩
  | object members => exact ⟨'\x7b', by simp [Value.text], by simp [blankChars]⟩

theorem valueTexts_le_visible {l : Layout} {B string value : Language Char} (hstring : string ≤ visible) :
    valueTexts l B string Json.Standard.number value ≤ visible := by
  unfold valueTexts
  repeat' apply add_le_visible
  · exact anyParts_le_visible (token_le_visible (by simp)) _
  · exact anyParts_le_visible (token_le_visible (by simp)) _
  · exact hstring
  · exact number_le_visible
  all_goals exact token_le_visible (by simp)

/-! ## Schemas -/

section

variable {l : Layout} {B : Language Char} {R : Ruled → Language Char}

mutual

/-- No text of a schema is blank if none is that the rules describe. -/
theorem texts_le_visible (hB : B ≤ Language.textsOf blankChars) (hR : ∀ r, r ≠ .char → R r ≤ visible) (depth : Nat) :
    ∀ s : Schema, texts l B R depth s ≤ visible
  | .any => by
    rw [texts]
    exact hR _ nofun
  | .reference target => by
    rw [texts]
    exact hR _ nofun
  | .invalid _ => bot_le
  | .values vs => by
    rw [texts]
    refine sum_le_visible (List.forall_mem_map.2 fun v _ => ?_)
    rintro _ rfl
    exact text_mem_visible v
  | .anyOf _ alternatives | .types alternatives => by
    rw [texts]
    exact sum_le_visible (textsOfEach_le_visible hB hR depth alternatives)
  | .allOf single => by
    rw [texts]
    exact texts_le_visible hB hR depth single
  | .boolean => by
    rw [texts]
    exact add_le_visible (token_le_visible (by simp)) (token_le_visible (by simp))
  | .null => by
    rw [texts]
    exact token_le_visible (by simp)
  | .pattern _ => by
    rw [texts, patternTexts]
    split
    · exact quoted_le_visible _
    · exact bot_le
  | .string least most => by
    rw [texts]
    split
    · exact hR _ nofun
    · exact quoted_le_visible _
  | .integer lo hi => by
    rw [texts, integerTexts]
    split
    · exact mul_le_visible' natural_le_visible
    · exact (signed_le_number _).trans number_le_visible
  | .number lo hi => by
    rw [texts, numberTexts]
    split
    · exact number_le_visible
    · rintro _ ⟨d, -, rfl⟩
      exact number_le_visible (Regex.decimals_le_number (Regex.mem_decimals.2 ⟨d, rfl⟩))
  | .emptyObject => by
    rw [texts]
    exact containerTexts_le_visible hB (token_le_visible (by simp)) _
  | .array .. => by
    rw [texts]
    rintro text ⟨n, -, -, -, htext⟩
    exact containerTexts_le_visible hB (token_le_visible (by simp)) _ htext
  | .object .. => by
    rw [texts]
    rintro text ⟨parts, -, -, htext⟩
    exact containerTexts_le_visible hB (token_le_visible (by simp)) _ htext

theorem textsOfEach_le_visible (hB : B ≤ Language.textsOf blankChars) (hR : ∀ r, r ≠ .char → R r ≤ visible) (depth : Nat) :
    ∀ ss : List Schema, ∀ L ∈ textsOfEach l B R depth ss, L ≤ visible
  | [] => List.forall_mem_nil _
  | s :: rest => List.forall_mem_cons.2 ⟨texts_le_visible hB hR depth s, textsOfEach_le_visible hB hR depth rest⟩

end

end

/-- No text that a rule describes is blank, but for single characters. -/
theorem rules_le_visible {document : Value} {strict : Bool} {l : Layout} {B : Language Char}
    (hB : B ≤ Language.textsOf blankChars) {r : Ruled} (hr : r ≠ .char) : rules document strict l B r ≤ visible := by
  let R : Ruled → Language Char := fun r => {text | r ≠ .char → text ∈ visible}
  have within (r : Ruled) (hr : r ≠ .char) : R r ≤ visible := fun text htext => htext hr
  have least : rules document strict l B ≤ R := by
    refine OrderHom.lfp_le _ fun r text htext hne => ?_
    cases r with
    | char => exact absurd rfl hne
    | string => exact quoted_le_visible _ htext
    | value => exact valueTexts_le_visible (within .string nofun) htext
    | reference target depth =>
      obtain ⟨found, -, htext⟩ := htext
      exact texts_le_visible hB within depth _ htext
  exact fun text htext => least r htext hr

/-- No text of a schema is blank. -/
theorem textsOf_le_visible (document : Value) (o : Options) (depth : Nat) (schema : Value) :
    textsOf document o depth schema ≤ visible :=
  texts_le_visible o.blanks_le (fun _ hr => rules_le_visible o.blanks_le hr) depth _

end ConstrainedDecoding.Schema
