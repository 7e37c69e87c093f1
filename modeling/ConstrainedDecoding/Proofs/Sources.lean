import ConstrainedDecoding.Ebnf.Source
import ConstrainedDecoding.Proofs.CharLanguages
import ConstrainedDecoding.Proofs.Printing

/-!
# What written sources say

A source describes a language of texts once it is said what the names in it do. A source that can be
read is cut into tokens that spell a phrase, and the phrase describes the UTF-8 forms of the texts of
the source.
-/
namespace ConstrainedDecoding.Ebnf

open Computability

/-! ## Languages -/

/-- What each name is taken to describe. -/
abbrev Meaning := String → Language Char

namespace Quantifier

/-- The least number of copies. -/
def least : Quantifier → Nat
  | .star | .question => 0
  | .plus => 1
  | .exactly n | .atLeast n => n
  | .between least _ => least

/-- The greatest number of copies, if there is one. -/
def most : Quantifier → Option Nat
  | .star | .plus | .atLeast _ => none
  | .question => some 1
  | .exactly n => some n
  | .between _ most => some most

/-- The greatest bound that is read. -/
def limit : Nat := 0xFFFFFFFF

/-- The bounds are in order and can be read. -/
def Fits (q : Quantifier) : Prop := q.least ≤ limit ∧ ∀ m ∈ q.most, q.least ≤ m ∧ m ≤ limit

@[simp] theorem fits_star : star.Fits := ⟨by decide, nofun⟩

@[simp] theorem fits_plus : plus.Fits := ⟨by decide, nofun⟩

@[simp] theorem fits_question : question.Fits := ⟨by decide, by rintro _ ⟨⟩; decide⟩

end Quantifier

namespace Source

mutual

/-- The texts of a source. -/
def language (K : Meaning) : Source → Language Char
  | .literal s => {s.toList}
  | .charClass _ set => Language.single set.chars
  | .name n => K n
  | .quantified body q => Language.copies (body.language K) q.least q.most
  | .sequence items => sequenceLanguage K items
  | .group alternatives => choiceLanguage K alternatives

/-- The texts of sources one after the other. -/
def sequenceLanguage (K : Meaning) : List Source → Language Char
  | [] => 1
  | s :: ss => s.language K * sequenceLanguage K ss

/-- The texts of some one of several sources. -/
def choiceLanguage (K : Meaning) : List Source → Language Char
  | [] => 0
  | s :: ss => s.language K + choiceLanguage K ss

end

variable {K K' : Meaning}

@[simp] theorem language_literal (s : String) : (literal s).language K = {s.toList} := rfl

@[simp] theorem language_charClass (style : ClassStyle) (set : CharClass) :
    (charClass style set).language K = Language.single set.chars := rfl

@[simp] theorem language_name (n : String) : (name n).language K = K n := rfl

theorem language_quantified (s : Source) (q : Quantifier) :
    (quantified s q).language K = Language.copies (s.language K) q.least q.most := rfl

@[simp] theorem language_star (s : Source) : (quantified s .star).language K = (s.language K)∗ :=
  (language_quantified s _).trans (Language.copies_star _)

@[simp] theorem language_plus (s : Source) :
    (quantified s .plus).language K = s.language K * (s.language K)∗ :=
  (language_quantified s _).trans (Language.copies_plus _)

@[simp] theorem language_question (s : Source) :
    (quantified s .question).language K = 1 + s.language K :=
  (language_quantified s _).trans (Language.copies_question _)

@[simp] theorem language_exactly (s : Source) (n : Nat) :
    (quantified s (.exactly n)).language K = s.language K ^ n :=
  (language_quantified s _).trans (Language.copies_exactly _ n)

@[simp] theorem language_sequence (ss : List Source) :
    (sequence ss).language K = sequenceLanguage K ss := rfl

@[simp] theorem language_group (ss : List Source) :
    (group ss).language K = choiceLanguage K ss := rfl

@[simp] theorem sequenceLanguage_nil : sequenceLanguage K [] = 1 := rfl

@[simp] theorem sequenceLanguage_cons (s : Source) (ss : List Source) :
    sequenceLanguage K (s :: ss) = s.language K * sequenceLanguage K ss := rfl

@[simp] theorem choiceLanguage_nil : choiceLanguage K [] = 0 := rfl

@[simp] theorem choiceLanguage_cons (s : Source) (ss : List Source) :
    choiceLanguage K (s :: ss) = s.language K + choiceLanguage K ss := rfl

@[simp] theorem sequenceLanguage_append (ss ts : List Source) :
    sequenceLanguage K (ss ++ ts) = sequenceLanguage K ss * sequenceLanguage K ts := by
  induction ss with
  | nil => simp
  | cons s ss ih => simp [ih, mul_assoc]

theorem mem_choiceLanguage {ss : List Source} {text : List Char} :
    text ∈ choiceLanguage K ss ↔ ∃ s ∈ ss, text ∈ s.language K := by
  induction ss with
  | nil =>
    rw [choiceLanguage_nil]
    exact iff_of_false (Language.notMem_zero text) (by simp)
  | cons s ss ih =>
    rw [choiceLanguage_cons, Language.mem_add, ih]
    simp

theorem choiceLanguage_le {ss : List Source} {L : Language Char} (h : ∀ s ∈ ss, s.language K ≤ L) :
    choiceLanguage K ss ≤ L := fun _ htext => by
  obtain ⟨s, hs, htext⟩ := mem_choiceLanguage.1 htext
  exact h s hs htext

@[simp] theorem language_ofAlternatives (ss : List Source) :
    (ofAlternatives ss).language K = choiceLanguage K ss := by
  unfold ofAlternatives
  split <;> simp

/-- A source that is repeated describes copies of its texts. -/
theorem sequenceLanguage_repeated_le (s : Source) (least : Nat) (most : Option Nat) :
    sequenceLanguage K (s.repeated least most) ≤ (s.language K)∗ := by
  unfold repeated
  split
  · simp only [sequenceLanguage_cons, sequenceLanguage_nil, language_quantified, language_group, choiceLanguage_cons,
      choiceLanguage_nil, add_zero, mul_one]
    exact Language.copies_le_kstar _ _ _
  · exact one_le_kstar

mutual

/-- A source describes more if the names do. -/
theorem language_mono (h : K ≤ K') : ∀ s : Source, s.language K ≤ s.language K'
  | .literal _ | .charClass _ _ => by simp
  | .name n => by simpa using h n
  | .quantified body q => by
    simpa [language_quantified] using Language.copies_mono (body.language_mono h) _ _
  | .sequence items => by simpa using sequenceLanguage_mono h items
  | .group alternatives => by simpa using choiceLanguage_mono h alternatives

theorem sequenceLanguage_mono (h : K ≤ K') : ∀ ss : List Source,
    sequenceLanguage K ss ≤ sequenceLanguage K' ss
  | [] => by simp
  | s :: ss => by simpa using mul_le_mul' (s.language_mono h) (sequenceLanguage_mono h ss)

theorem choiceLanguage_mono (h : K ≤ K') : ∀ ss : List Source,
    choiceLanguage K ss ≤ choiceLanguage K' ss
  | [] => by simp
  | s :: ss => by simpa using add_le_add (s.language_mono h) (choiceLanguage_mono h ss)

end

theorem texts_eq (ss : List Source) : texts ss = ss.map text := by
  induction ss with
  | nil => rfl
  | cons s ss ih => rw [texts, ih, List.map_cons]

end Source

/-! ## Sources that can be read -/

/-- A class is written as members between brackets that have its ranges. -/
def ClassStyle.Writes (style : ClassStyle) (set : CharClass) : Prop :=
  ∃ ms, (style.text set).toList = classChars style.char set.negated ms ∧
    (∀ n, .code n ∈ ms → InClass style.char n) ∧ Ranges ms set.ranges

theorem toList_classStyle (style : ClassStyle) (set : CharClass) : (style.text set).toList =
    classChars style.char set.negated (set.ranges.flatMap rangeMembers) := by
  have range (r : UInt32 × UInt32) :
      (style.char r.1 ++ if r.1 = r.2 then "" else "-" ++ style.char r.2).toList =
        memberChars style.char (rangeMembers r) := by
    unfold rangeMembers
    split <;> simp [memberChars, memberText]
  rw [ClassStyle.text, classChars]
  cases set.negated <;>
    simp [toList_foldl_append, range, memberChars, List.flatMap_assoc]

namespace ClassStyle

variable {style : ClassStyle} {set : CharClass}

theorem writes_of_inClass (h : ∀ r ∈ set.ranges, r.1 ≤ r.2)
    (hcode : ∀ r ∈ set.ranges, InClass style.char r.1 ∧ InClass style.char r.2) : style.Writes set :=
  ⟨_, toList_classStyle style set, inClass_of_mem_rangeMembers hcode, ranges_rangeMembers h⟩

theorem writes_printed (h : ∀ r ∈ set.ranges, r.1 ≤ r.2) : printed.Writes set :=
  writes_of_inClass h fun r _ => ⟨spelling_codePointText r.1, spelling_codePointText r.2⟩

theorem inClass_numberedChar (n : UInt32) : InClass numberedChar n := by
  have number : Spelling classEscapes classSpecials
      (if n ≤ 0xffff then "\\u" ++ Text.hex 4 n.toNat else "\\U" ++ Text.hex 8 n.toNat) n.toNat := by
    split
    · rename_i hle
      simp only [UInt32.le_iff_toNat_le, UInt32.reduceToNat] at hle
      exact spelling_hex rfl (by decide) (fun _ => rfl) (by decide) (by omega)
    · exact spelling_hex rfl (by decide) (fun _ => rfl) (by decide) n.toNat_lt
  unfold InClass numberedChar
  dsimp only
  split
  · rename_i hvalid
    have toNat := toNat_charOfNat hvalid
    generalize Char.ofNat n.toNat = c at toNat
    rw [← toNat] at number ⊢
    split
    · rename_i hspecial
      simp only [List.mem_cons, List.not_mem_nil, or_false] at hspecial
      rcases hspecial with rfl | rfl | rfl | rfl | rfl
      · exact ⟨'\\', ['\\'], rfl, by decide, fun _ => rfl⟩
      · exact ⟨'\\', [']'], rfl, by decide, fun _ => rfl⟩
      · exact ⟨'\\', ['^'], rfl, by decide, fun _ => rfl⟩
      · exact ⟨'\\', ['-'], rfl, by decide, fun _ => rfl⟩
      · exact ⟨'\\', ['['], rfl, by decide, fun _ => rfl⟩
    · rename_i hspecial
      simp only [List.mem_cons, List.not_mem_nil, or_false, not_or] at hspecial
      split
      · rename_i hvisible
        have notBreak : c ≠ '\n' ∧ c ≠ '\r' := by
          constructor <;>
            · rintro rfl
              revert hvisible
              decide
        exact spelling_plain hspecial.1 (by simp [classSpecials, hspecial, notBreak])
      · exact number
  · exact number

theorem writes_numbered (h : ∀ r ∈ set.ranges, r.1 ≤ r.2) : numbered.Writes set :=
  writes_of_inClass h fun r _ => ⟨inClass_numberedChar r.1, inClass_numberedChar r.2⟩

/-- A dash that stands by itself at the end of a class is a member. -/
theorem writes_signs : plain.Writes ⟨false, [(0x2b, 0x2b), (0x2d, 0x2d)]⟩ := by
  refine ⟨[.code 0x2b, .dash], rfl, ?_,
    .single (m := .code 0x2b) (by simp) (.single (m := .dash) (by simp) .nil)⟩
  intro n hn
  obtain rfl : n = 0x2b := by simpa using hn
  exact spelling_plain (c := '+') (by decide) (by decide)

end ClassStyle

/-- A source has the form that a role asks for, where the names that are known and the quantifiers that
fit may be used. -/
inductive Formed (known : String → Prop) (fits : Quantifier → Prop) : Role → Source → Prop
  | literal {s} : Formed known fits .element (.literal s)
  | charClass {style set} : style.Writes set → Formed known fits .element (.charClass style set)
  | name {n} : IsName n → known n → Formed known fits .element (.name n)
  | group {ss} : ss ≠ [] → (∀ s ∈ ss, Formed known fits .sequence s) → Formed known fits .element (.group ss)
  | plain {s} : Formed known fits .element s → Formed known fits .item s
  | quantified {s q} : Formed known fits .element s → fits q → Formed known fits .item (.quantified s q)
  | single {s} : Formed known fits .item s → Formed known fits .sequence s
  | sequence {ss} : ss ≠ [] → (∀ s ∈ ss, Formed known fits .sequence s) →
      Formed known fits .sequence (.sequence ss)

/-- A source that can be read in a role, where the names that are known may be used. -/
abbrev Readable (known : String → Prop) : Role → Source → Prop := Formed known Quantifier.Fits

variable {known known' : String → Prop} {fits fits' : Quantifier → Prop} {refers : String → RuleId → Prop}

theorem Formed.imp {role : Role} {s : Source} (h : Formed known fits role s)
    (hknown : ∀ n, known n → known' n) (hfits : ∀ q, fits q → fits' q) : Formed known' fits' role s := by
  induction h with
  | literal => exact .literal
  | charClass h => exact .charClass h
  | name hn h => exact .name hn (hknown _ h)
  | group hne _ ih => exact .group hne ih
  | plain _ ih => exact .plain ih
  | quantified _ hq ih => exact .quantified ih (hfits _ hq)
  | single _ ih => exact .single ih
  | sequence hne _ ih => exact .sequence hne ih

@[simp] theorem formed_literal {s : String} : Formed known fits .element (.literal s) := .literal

@[simp] theorem formed_charClass {style : ClassStyle} {set : CharClass} :
    Formed known fits .element (.charClass style set) ↔ style.Writes set :=
  ⟨fun | .charClass h => h, .charClass⟩

@[simp] theorem formed_name {n : String} : Formed known fits .element (.name n) ↔ IsName n ∧ known n :=
  ⟨fun | .name h h' => ⟨h, h'⟩, fun h => .name h.1 h.2⟩

@[simp] theorem formed_group {ss : List Source} : Formed known fits .element (.group ss) ↔
    ss ≠ [] ∧ ∀ s ∈ ss, Formed known fits .sequence s :=
  ⟨fun | .group h h' => ⟨h, h'⟩, fun h => .group h.1 h.2⟩

theorem Formed.toSequence {s : Source} (h : Formed known fits .element s) : Formed known fits .sequence s :=
  .single (.plain h)

@[simp] theorem formed_sequence_literal {s : String} : Formed known fits .sequence (.literal s) :=
  formed_literal.toSequence

@[simp] theorem formed_sequence_charClass {style : ClassStyle} {set : CharClass} :
    Formed known fits .sequence (.charClass style set) ↔ style.Writes set :=
  ⟨fun | .single (.plain (.charClass h)) => h, fun h => (formed_charClass.2 h).toSequence⟩

@[simp] theorem formed_sequence_name {n : String} :
    Formed known fits .sequence (.name n) ↔ IsName n ∧ known n :=
  ⟨fun | .single (.plain (.name h h')) => ⟨h, h'⟩, fun h => (formed_name.2 h).toSequence⟩

@[simp] theorem formed_sequence_group {ss : List Source} : Formed known fits .sequence (.group ss) ↔
    ss ≠ [] ∧ ∀ s ∈ ss, Formed known fits .sequence s :=
  ⟨fun | .single (.plain (.group h h')) => ⟨h, h'⟩, fun h => (formed_group.2 h).toSequence⟩

@[simp] theorem formed_quantified {s : Source} {q : Quantifier} :
    Formed known fits .sequence (.quantified s q) ↔ Formed known fits .element s ∧ fits q :=
  ⟨fun | .single (.quantified h h') => ⟨h, h'⟩, fun h => .single (.quantified h.1 h.2)⟩

@[simp] theorem formed_sequence {ss : List Source} : Formed known fits .sequence (.sequence ss) ↔
    ss ≠ [] ∧ ∀ s ∈ ss, Formed known fits .sequence s :=
  ⟨fun | .sequence h h' => ⟨h, h'⟩, fun h => .sequence h.1 h.2⟩

@[simp] theorem formed_ofAlternatives {ss : List Source} :
    Formed known fits .sequence (.ofAlternatives ss) ↔ ss ≠ [] ∧ ∀ s ∈ ss, Formed known fits .sequence s := by
  unfold Source.ofAlternatives
  split <;> simp

theorem Formed.opens {role : Role} {s : Source} (h : Formed known fits role s) : Opens s.text := by
  induction h with
  | literal => exact ((show Opens "\"" from ⟨'"', [], rfl, by decide⟩).append _).append _
  | charClass => exact (((show Opens "[" from ⟨'[', [], rfl, by decide⟩).append _).append _).append _
  | name hn _ => exact hn.opens
  | group => exact ((show Opens "(" from ⟨'(', [], rfl, by decide⟩).append _).append _
  | quantified _ _ ih =>
    rw [Source.text]
    exact ih.append _
  | plain _ ih | single _ ih => exact ih
  | sequence hne _ ih =>
    rw [Source.text, Source.texts_eq]
    exact opens_intercalate hne ih

/-! ## Cutting -/

/-- A phrase describes the UTF-8 forms of a language, wherever rules are read as the names that refer
to them. -/
def Phrase.Means (refers : String → RuleId → Prop) (p : Phrase) (Λ : Meaning → Language Char) : Prop :=
  ∀ (L : Reading) (K : Meaning), (∀ n r, refers n r → L r = Utf8.encoded (K n)) →
    p.language L = Utf8.encoded (Λ K)

/-- Tokens spell a phrase that describes a language. -/
def Says (refers : String → RuleId → Prop) (role : Role) (Λ : Meaning → Language Char)
    (ts : List Token) : Prop :=
  ∃ p, Spells refers role ts p ∧ p.Means refers Λ

/-- Two sequences one after the other are a sequence. -/
theorem Spells.append {ts us : List Token} {ps qs : List Phrase}
    (h : Spells refers .sequence ts (.sequence ps)) (h' : Spells refers .sequence us (.sequence qs)) :
    Spells refers .sequence (ts ++ us) (.sequence (ps ++ qs)) := by
  generalize hrole : Role.sequence = role at h
  generalize hp : Phrase.sequence ps = p at h
  induction h generalizing ps with
  | last h =>
    obtain rfl := Phrase.sequence.inj hp
    exact .further h h'
  | further h _ _ ih =>
    obtain rfl := Phrase.sequence.inj hp
    rw [List.append_assoc]
    exact .further h (ih rfl rfl)
  | _ => cases hrole

theorem Spells.exists_sequence {ts : List Token} {p : Phrase} (h : Spells refers .sequence ts p) :
    ∃ ps, p = .sequence ps := by
  cases h <;> exact ⟨_, rfl⟩

theorem Phrase.sequenceLanguage_append (L : Reading) (ps qs : List Phrase) :
    sequenceLanguage L (ps ++ qs) = sequenceLanguage L ps * sequenceLanguage L qs := by
  induction ps with
  | nil => simp [sequenceLanguage]
  | cons p ps ih => simp [sequenceLanguage, ih, mul_assoc]

theorem Says.append {ts us : List Token} {Λ Λ' : Meaning → Language Char} (h : Says refers .sequence Λ ts)
    (h' : Says refers .sequence Λ' us) : Says refers .sequence (fun K => Λ K * Λ' K) (ts ++ us) := by
  obtain ⟨p, hp, hmeans⟩ := h
  obtain ⟨q, hq, hmeans'⟩ := h'
  obtain ⟨ps, rfl⟩ := hp.exists_sequence
  obtain ⟨qs, rfl⟩ := hq.exists_sequence
  refine ⟨_, hp.append hq, fun L K hL => ?_⟩
  have first := hmeans L K hL
  have second := hmeans' L K hL
  rw [Phrase.language] at first second ⊢
  rw [Phrase.sequenceLanguage_append, first, second, map_mul]

theorem Says.bar {ts us : List Token} {Λ Λ' : Meaning → Language Char} (h : Says refers .sequence Λ ts)
    (h' : Says refers .choice Λ' us) : Says refers .choice (fun K => Λ K + Λ' K) (ts ++ .pipe :: us) := by
  obtain ⟨p, hp, hmeans⟩ := h
  obtain ⟨q, hq, hmeans'⟩ := h'
  obtain ⟨qs, rfl⟩ : ∃ qs, q = .choice qs := by cases hq <;> exact ⟨_, rfl⟩
  refine ⟨_, .bar hp hq, fun L K hL => ?_⟩
  have second := hmeans' L K hL
  rw [Phrase.language] at second ⊢
  rw [Phrase.choiceLanguage, hmeans L K hL, second, map_add]

theorem Says.only {ts : List Token} {Λ : Meaning → Language Char} (h : Says refers .sequence Λ ts) :
    Says refers .choice Λ ts := by
  obtain ⟨p, hp, hmeans⟩ := h
  refine ⟨_, .only hp, fun L K hL => ?_⟩
  rw [Phrase.language, Phrase.choiceLanguage, Phrase.choiceLanguage, add_zero, hmeans L K hL]

theorem Says.last {ts : List Token} {Λ : Meaning → Language Char} (h : Says refers .item Λ ts) :
    Says refers .sequence Λ ts := by
  obtain ⟨p, hp, hmeans⟩ := h
  refine ⟨_, .last hp, fun L K hL => ?_⟩
  rw [Phrase.language, Phrase.sequenceLanguage, Phrase.sequenceLanguage, mul_one, hmeans L K hL]

namespace Quantifier

theorem toNat_ofNat {n : Nat} (h : n ≤ limit) : (UInt32.ofNat n).toNat = n :=
  UInt32.toNat_ofNat_of_lt' (Nat.lt_of_le_of_lt h (by decide))

variable {q : Quantifier}

theorem Fits.toNat_least (hq : q.Fits) : (UInt32.ofNat q.least).toNat = q.least := toNat_ofNat hq.1

theorem Fits.toNat_most (hq : q.Fits) : (q.most.map UInt32.ofNat).map UInt32.toNat = q.most := by
  cases h : q.most with
  | none => rfl
  | some m => simp [toNat_ofNat (hq.2 m h).2]

theorem follows_text (q : Quantifier) (rest : List Char) : Follows ends (q.text.toList ++ rest) := by
  have braced (s : String) : Follows ends (("\x7b" ++ s).toList ++ rest) := by
    rw [String.toList_append, List.append_assoc]
    exact follows_ends rfl (by decide) _
  cases q with
  | star | plus | question => exact follows_ends rfl (by decide) rest
  | exactly | atLeast | between =>
    simp only [text, String.append_assoc]
    exact braced _

end Quantifier

theorem cuts_quantifier {q : Quantifier} (hq : q.Fits) : Cuts q.text anything
    (Bounds · (UInt32.ofNat q.least) (q.most.map UInt32.ofNat)) := by
  have toNat {n : Nat} := Quantifier.toNat_ofNat (n := n)
  have bound {n : Nat} (h : n ≤ Quantifier.limit) :
      Cuts (toString n) ends (· = [.integer (UInt32.ofNat n).toNat]) := by
    have := cuts_bound (UInt32.ofNat n)
    rwa [toNat h] at this ⊢
  have opened {n : Nat} (h : n ≤ Quantifier.limit) : Cuts ("\x7b" ++ toString n) ends
      (· = [.leftBrace, .integer (UInt32.ofNat n).toNat]) :=
    cuts_leftBrace.concat (bound h) fun _ _ => follows_anything _
  cases q with
  | star =>
    refine cuts_star.imp ?_
    rintro _ rfl
    exact .star
  | plus =>
    refine (cuts_punctuation (c := '+') rfl (by decide) rfl (by decide)).imp ?_
    rintro _ rfl
    exact .plus
  | question =>
    refine (cuts_punctuation (c := '?') rfl (by decide) rfl (by decide)).imp ?_
    rintro _ rfl
    exact .question
  | exactly n =>
    refine ((opened hq.1).concat cuts_rightBrace fun rest _ => follows_ends rfl (by decide) rest).imp ?_
    rintro _ rfl
    exact .exactly
  | atLeast n =>
    refine ((opened hq.1).concat cuts_openEnd fun rest _ => follows_ends rfl (by decide) rest).imp ?_
    rintro _ rfl
    exact .atLeast
  | between m n =>
    obtain ⟨hle, hlimit⟩ := hq.2 n rfl
    refine ((((opened hq.1).concat cuts_comma fun rest _ => follows_ends rfl (by decide) _).concat
      (bound hlimit) fun _ _ => follows_anything _).concat cuts_rightBrace
        fun rest _ => follows_ends rfl (by decide) rest).imp ?_
    rintro _ rfl
    refine .between (UInt32.le_iff_toNat_le.2 ?_)
    rw [toNat hq.1, toNat hlimit]
    exact hle

theorem toList_sourceLiteral (s : String) :
    (Source.literalText s).toList = (Grammar.literalText (Utf8.ofString s)).toList := by
  rw [toList_literalText, Source.literalText]
  simp [String.foldl_eq_foldl_toList, toList_foldl_append, literalChars]

/-- Readable sources with bars between them say that a text is one of either. -/
theorem cuts_alternatives {ss : List Source} (hne : ss ≠ [])
    (h : ∀ s ∈ ss, Cuts s.text ends (Says refers .sequence s.language)) :
    Cuts (" | ".intercalate (Source.texts ss)) ends (Says refers .choice (Source.choiceLanguage · ss)) := by
  rw [Source.texts_eq]
  refine cuts_intercalate (R := fun s => Says refers .sequence fun K => s.language K)
    (S := fun ss => Says refers .choice (Source.choiceLanguage · ss)) cuts_bar
    (fun rest => follows_ends rfl (by decide) rest) (fun s ts hs => ?_) ?_ ss hne h
  · simpa using hs.only
  · intro s ss ts us hs hss
    rw [List.append_assoc]
    simpa using hs.bar hss

/-- Readable sources with blanks between them say that texts of theirs stand one after the other. -/
theorem cuts_sources {ss : List Source} (hne : ss ≠ [])
    (h : ∀ s ∈ ss, Cuts s.text ends (Says refers .sequence s.language)) :
    Cuts (" ".intercalate (Source.texts ss)) ends (Says refers .sequence (Source.sequenceLanguage · ss)) := by
  rw [Source.texts_eq]
  refine cuts_intercalate (R := fun s => Says refers .sequence fun K => s.language K)
    (S := fun ss => Says refers .sequence (Source.sequenceLanguage · ss)) cuts_blank
    (fun rest => follows_ends rfl (by decide) rest) (fun s ts hs => ?_) ?_ ss hne h
  · simpa using hs
  · intro s ss ts us hs hss
    rw [List.append_nil]
    simpa using hs.append hss

/-- A readable source is cut into tokens that say what it does. -/
theorem cuts_source (hrefers : ∀ n, known n → ∃ r, refers n r) {role : Role} {s : Source}
    (h : Readable known role s) : Cuts s.text ends (Says refers role s.language) := by
  induction h with
  | @literal s =>
    have cut : Cuts (Source.literalText s) ends (· = [.literal s]) := by
      rw [String.toList_inj.1 (toList_sourceLiteral s)]
      exact cuts_literal.of_anything
    refine cut.imp ?_
    rintro _ rfl
    by_cases hs : s = ""
    · subst hs
      exact ⟨_, .emptyLiteral, fun L K _ => by simp [Phrase.language]; rfl⟩
    · exact ⟨_, .literal hs, fun L K _ => by simp [Phrase.language, Utf8.ofString]⟩
  | charClass h =>
    obtain ⟨ms, hs, hcode, hranges⟩ := h
    refine (cuts_brackets hs hcode hranges).of_anything.imp ?_
    rintro _ ⟨members, close, rfl, hranges⟩
    exact ⟨_, .charClass hranges, fun L K _ => by simp [Phrase.language, Utf8.encoded_class]⟩
  | @name n hn h =>
    obtain ⟨r, hr⟩ := hrefers n h
    refine (cuts_name hn).imp ?_
    rintro _ rfl
    exact ⟨_, .identifier hr, fun L K hL => by simp [Phrase.language, hL n r hr]⟩
  | @group ss hne h ih =>
    have opens : Opens (" | ".intercalate (Source.texts ss)) := by
      rw [Source.texts_eq]
      exact opens_intercalate hne fun s hs => (h s hs).opens
    refine (cuts_group opens (cuts_alternatives hne ih) fun us h => ?_).of_anything
    obtain ⟨p, hp, hmeans⟩ := h
    exact ⟨p, .group hp, fun L K hL => by simp [hmeans L K hL]⟩
  | plain _ ih =>
    refine ih.imp ?_
    rintro _ ⟨p, hp, hmeans⟩
    exact ⟨p, .plain hp, hmeans⟩
  | @quantified s q _ hq ih =>
    refine (ih.append (cuts_quantifier hq) ?_ ?_).of_anything
    · intro rest _
      exact q.follows_text rest
    · rintro us vs ⟨p, hp, hmeans⟩ hbounds
      refine ⟨_, .quantified hp hbounds, fun L K hL => ?_⟩
      simp only [Source.language_quantified]
      rw [Phrase.language, hmeans L K hL, Utf8.encoded_copies, hq.toNat_least, hq.toNat_most]
  | single _ ih => exact ih.imp fun _ => .last
  | sequence hne _ ih => simpa only [Source.text, Source.language_sequence] using cuts_sources hne ih

end ConstrainedDecoding.Ebnf
