import ConstrainedDecoding.Ebnf.Lexer
import ConstrainedDecoding.Grammar.Printer
import ConstrainedDecoding.Proofs.Encodings
import ConstrainedDecoding.Proofs.Folds
import ConstrainedDecoding.Proofs.Phrases

/-!
# Literals and classes as they are written

A character that is written by itself or as an escape is read back, whatever follows it, so the
text between quotes is the literal's and the ranges between brackets are the class's.
-/
namespace ConstrainedDecoding.Ebnf

/-! ## Characters -/

/-- A text is one character or escape for a code point, and does not start with a character in
`special`. -/
def Spelling (own special : List Char) (text : String) (n : Nat) : Prop :=
  ∃ c cs, text.toList = c :: cs ∧ c ∉ special ∧ ∀ rest, readUnit own c (cs ++ rest) = .ok (n, cs.length)

theorem spelling_plain {own special : List Char} {c : Char} (hc : c ≠ '\\') (hspecial : c ∉ special) :
    Spelling own special c.toString c.toNat := by
  refine ⟨c, [], by simp [Char.toString_eq_singleton], hspecial, fun rest => ?_⟩
  simp [readUnit, hc]

theorem hexDigits_hex (kind : EscapeKind) {width n : Nat} (hwidth : 0 < width) (h : n < 16 ^ width)
    (rest : List Char) : hexDigits kind width ((Text.hex width n).toList ++ rest) = .ok n := by
  have length := Text.length_hex hwidth h
  have take : ((Text.hex width n).toList ++ rest).take width = (Text.hex width n).toList :=
    List.take_left' length
  have all : (Text.hex width n).toList.all Text.isHex = true :=
    List.all_eq_true.2 Text.isHex_of_mem_hex
  simp only [hexDigits, take, length, all, and_self, if_true, Text.hexNumber_hex]

theorem spelling_hex {own special : List Char} {kind : EscapeKind} {mark : String} {letter : Char}
    {width n : Nat} (hmark : mark.toList = ['\\', letter]) (hspecial : '\\' ∉ special)
    (hescape : ∀ cs, readEscape own (letter :: cs) =
      (hexDigits kind width cs).map fun n => (n, width + 1))
    (hwidth : 0 < width) (h : n < 16 ^ width) : Spelling own special (mark ++ Text.hex width n) n := by
  refine ⟨'\\', letter :: (Text.hex width n).toList, by simp [hmark], hspecial, fun rest => ?_⟩
  rw [readUnit, if_pos rfl, List.cons_append, hescape, hexDigits_hex kind hwidth h, List.length_cons,
    Text.length_hex hwidth h]
  rfl

/-- The characters that cannot stand by themselves in a literal. -/
def literalSpecials : List Char := ['"', '\n', '\r']

/-- The characters that cannot stand by themselves in a class, its start included. -/
def classSpecials : List Char := [']', '\n', '\r', '-', '^']

theorem spelling_literalChar (c : Char) :
    Spelling [] literalSpecials (Grammar.literalChar c) c.toNat := by
  unfold Grammar.literalChar
  split
  · subst c
    exact ⟨'\\', ['\\'], rfl, by decide, fun _ => rfl⟩
  split
  · subst c
    exact ⟨'\\', ['"'], rfl, by decide, fun _ => rfl⟩
  split
  · subst c
    exact ⟨'\\', ['n'], rfl, by decide, fun _ => rfl⟩
  split
  · subst c
    exact ⟨'\\', ['r'], rfl, by decide, fun _ => rfl⟩
  split
  · subst c
    exact ⟨'\\', ['t'], rfl, by decide, fun _ => rfl⟩
  split
  · rename_i hcontrol
    refine spelling_hex rfl (by decide) (fun _ => rfl) (by decide) ?_
    simp only [Text.isControl, Bool.or_eq_true, Bool.and_eq_true, decide_eq_true_eq] at hcontrol
    omega
  · exact spelling_plain ‹_› (by simp [literalSpecials, *])

theorem toNat_charOfNat {n : Nat} (h : n.isValidChar) : (Char.ofNat n).toNat = n := by
  rw [Char.ofNat, dif_pos h]
  rfl

theorem spelling_codePointText (n : UInt32) :
    Spelling classEscapes classSpecials (Grammar.codePointText n) n.toNat := by
  unfold Grammar.codePointText
  split
  · subst n
    exact ⟨'\\', ['\\'], rfl, by decide, fun _ => rfl⟩
  split
  · subst n
    exact ⟨'\\', [']'], rfl, by decide, fun _ => rfl⟩
  split
  · subst n
    exact ⟨'\\', ['^'], rfl, by decide, fun _ => rfl⟩
  split
  · subst n
    exact ⟨'\\', ['-'], rfl, by decide, fun _ => rfl⟩
  split
  · subst n
    exact ⟨'\\', ['t'], rfl, by decide, fun _ => rfl⟩
  split
  · subst n
    exact ⟨'\\', ['n'], rfl, by decide, fun _ => rfl⟩
  split
  · subst n
    exact ⟨'\\', ['r'], rfl, by decide, fun _ => rfl⟩
  split
  · rename_i hvisible
    simp only [UInt32.le_iff_toNat_le, UInt32.reduceToNat] at hvisible
    have toNat : (Char.ofNat n.toNat).toNat = n.toNat :=
      toNat_charOfNat (by rw [Nat.isValidChar]; omega)
    have ne {c : Char} {m : UInt32} (hc : c.toNat = m.toNat) (hm : n ≠ m) : Char.ofNat n.toNat ≠ c := by
      rintro rfl
      exact hm (UInt32.toNat_inj.1 (toNat ▸ hc))
    have plain : Spelling classEscapes classSpecials (Char.ofNat n.toNat).toString
        (Char.ofNat n.toNat).toNat := spelling_plain (ne (c := '\\') rfl ‹n ≠ 0x5c›) ?_
    · rwa [toNat] at plain
    · simp [classSpecials, ne (c := ']') rfl ‹n ≠ 0x5d›, ne (c := '\n') rfl ‹n ≠ 0x0a›,
        ne (c := '\r') rfl ‹n ≠ 0x0d›, ne (c := '-') rfl ‹n ≠ 0x2d›, ne (c := '^') rfl ‹n ≠ 0x5e›]
  split
  · rename_i hle
    simp only [UInt32.le_iff_toNat_le, UInt32.reduceToNat] at hle
    exact spelling_hex rfl (by decide) (fun _ => rfl) (by decide) (by omega)
  · exact spelling_hex rfl (by decide) (fun _ => rfl) (by decide) n.toNat_lt

/-! ## Readings -/

/-- A part of a text has been read on its line: its value is one of `V`, and `rest` is left. -/
def Reads {n : Nat} {α : Type} (outcome : Except Fault (Cut n α)) (V : α → Prop) (line : Nat)
    (rest : List Char) : Prop :=
  ∃ cut, outcome = .ok cut ∧ V cut.value ∧ cut.position.line = line ∧ cut.rest = rest

theorem Reads.map {m n : Nat} {α β : Type} {outcome : Except Fault (Cut m α)} {V : α → Prop} {W : β → Prop}
    {line : Nat} {rest : List Char} {f : Cut m α → Cut n β} (h : Reads outcome V line rest)
    (hf : ∀ cut, V cut.value → W (f cut).value ∧ (f cut).position = cut.position ∧
      (f cut).rest = cut.rest) : Reads (outcome.map f) W line rest := by
  obtain ⟨cut, rfl, hV, rfl, rfl⟩ := h
  obtain ⟨hW, hposition, hrest⟩ := hf cut hV
  exact ⟨f cut, rfl, hW, by rw [hposition], hrest⟩

/-- The characters of a literal as they are written. -/
def literalChars (s : List Char) : List Char := s.flatMap fun c => (Grammar.literalChar c).toList

theorem reads_literal (s rest : List Char) : ∀ (p : Position) (done cs : List Char),
    cs = literalChars s ++ '"' :: rest →
      Reads (readLiteral p done cs) (· = String.ofList (done.reverse ++ s)) p.line rest := by
  induction s with
  | nil =>
    rintro p done _ rfl
    rw [literalChars, List.flatMap_nil, List.nil_append, readLiteral.eq_def]
    exact ⟨_, rfl, by simp, rfl, rfl⟩
  | cons c s ih =>
    rintro p done _ rfl
    obtain ⟨a, as, htext, hspecial, hunit⟩ := spelling_literalChar c
    have valid : c.toNat.isValidChar := c.valid
    have step : literalChars (c :: s) ++ '"' :: rest = a :: (as ++ (literalChars s ++ '"' :: rest)) := by
      simp [literalChars, htext]
    simp only [literalSpecials, List.mem_cons, List.not_mem_nil, or_false, not_or] at hspecial
    rw [step, readLiteral.eq_def]
    obtain ⟨hquote, hfeed, hreturn⟩ := hspecial
    simp only [hquote, hfeed, hreturn, or_self, if_false, hunit, valid, if_true, Char.ofNat_toNat]
    refine (ih _ (c :: done) _ List.drop_left).map fun cut hcut => ⟨?_, rfl, rfl⟩
    simpa using hcut

/-! ## Classes -/

/-- The members by which a range is written. -/
def rangeMembers (r : UInt32 × UInt32) : List ClassMember :=
  if r.1 = r.2 then [.code r.1] else [.code r.1, .dash, .code r.2]

theorem ranges_rangeMembers {ranges : List (UInt32 × UInt32)} (h : ∀ r ∈ ranges, r.1 ≤ r.2) :
    Ranges (ranges.flatMap rangeMembers) ranges := by
  induction ranges with
  | nil => exact .nil
  | cons r ranges ih =>
    obtain ⟨hr, hranges⟩ := List.forall_mem_cons.1 h
    rw [List.flatMap_cons]
    by_cases heq : r.1 = r.2
    · obtain ⟨lo, hi⟩ := r
      obtain rfl : lo = hi := heq
      rw [rangeMembers, if_pos rfl]
      refine .single (m := .code lo) (fun hi rest hdash => ?_) (ih hranges)
      -- what is written next starts with a code point, so no dash follows
      cases ranges with
      | nil => simp at hdash
      | cons s ranges =>
        rw [List.flatMap_cons, rangeMembers] at hdash
        split at hdash <;> simp at hdash
    · rw [rangeMembers, if_neg heq]
      have hr : (ClassMember.code r.1).codePoint ≤ (ClassMember.code r.2).codePoint := hr
      exact .range hr (ih hranges)

/-- A code point that is written as itself or as an escape inside a class. -/
abbrev InClass (code : UInt32 → String) (n : UInt32) : Prop :=
  Spelling classEscapes classSpecials (code n) n.toNat

section

variable {code : UInt32 → String}

/-- A member of a class as it is written, given how code points are. -/
def memberText (code : UInt32 → String) : ClassMember → String
  | .code n => code n
  | .dash => "-"

/-- Members of a class as they are written. -/
def memberChars (code : UInt32 → String) (ms : List ClassMember) : List Char :=
  ms.flatMap fun m => (memberText code m).toList

theorem reads_members (ms : List ClassMember) (rest : List Char) :
    (∀ n, .code n ∈ ms → InClass code n) →
    ∀ (p : Position) (done : List (Located ClassMember)) (cs : List Char),
      cs = memberChars code ms ++ ']' :: rest → Reads (readMembers p done cs)
        (fun v => v.1.map (·.value) = (done.reverse.map (·.value)) ++ ms) p.line rest := by
  induction ms with
  | nil =>
    rintro - p done _ rfl
    rw [memberChars, List.flatMap_nil, List.nil_append, readMembers.eq_def]
    exact ⟨_, rfl, by simp, rfl, rfl⟩
  | cons m ms ih =>
    rintro hcode p done _ rfl
    have ih := ih fun n hn => hcode n (List.mem_cons_of_mem _ hn)
    rw [memberChars, List.flatMap_cons, List.append_assoc]
    cases m with
    | dash =>
      rw [memberText, show "-".toList = ['-'] from rfl, List.singleton_append, readMembers.eq_def]
      refine (ih (p.right 1) (⟨p, .dash⟩ :: done) _ rfl).map fun cut hcut => ⟨?_, rfl, rfl⟩
      simpa using hcut
    | code n =>
      obtain ⟨a, as, htext, hspecial, hunit⟩ := hcode n List.mem_cons_self
      simp only [classSpecials, List.mem_cons, List.not_mem_nil, or_false, not_or] at hspecial
      obtain ⟨hclose, hfeed, hreturn, hdash, -⟩ := hspecial
      rw [memberText, htext, List.cons_append, readMembers.eq_def]
      simp only [hclose, hfeed, hreturn, hdash, or_self, if_false, hunit, UInt32.ofNat_toNat]
      refine (ih _ (⟨p, .code n⟩ :: done) _ List.drop_left).map fun cut hcut => ⟨?_, rfl, rfl⟩
      simpa using hcut

/-- The code points that members of ranges are written as are bounds of the ranges. -/
theorem inClass_of_mem_rangeMembers {ranges : List (UInt32 × UInt32)}
    (h : ∀ r ∈ ranges, InClass code r.1 ∧ InClass code r.2) :
    ∀ n, .code n ∈ ranges.flatMap rangeMembers → InClass code n := by
  intro n hn
  obtain ⟨r, hr, hmem⟩ := List.mem_flatMap.1 hn
  have : n = r.1 ∨ n = r.2 := by
    unfold rangeMembers at hmem
    split at hmem <;> simp_all
  rcases this with rfl | rfl
  · exact (h r hr).1
  · exact (h r hr).2

end

end ConstrainedDecoding.Ebnf
