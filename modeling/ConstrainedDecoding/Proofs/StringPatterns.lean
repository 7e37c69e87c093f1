import ConstrainedDecoding.Proofs.JsonTexts
import ConstrainedDecoding.Proofs.PatternDescent
import ConstrainedDecoding.Schema.Basic

/-!
# Patterns of strings

The source of a string with a pattern puts the texts that match between quotes as they are, so they have to be
texts that may stand there. That can often be told from the characters of the pattern, by reading them once from
the left, and it holds of the patterns of the string formats.
-/
namespace ConstrainedDecoding.Regex

open Computability

/-! ## Plain characters -/

/-- A character may stand between the quotes of a string as it is. -/
def IsPlain (c : Char) : Prop := 0x20 ≤ c.toNat ∧ c ≠ '"' ∧ c ≠ '\\'

instance (c : Char) : Decidable (IsPlain c) := inferInstanceAs (Decidable (_ ∧ _))

/-- The characters from one to another may stand between quotes. -/
def PlainRange (a b : Char) : Prop := IsPlain b ∧ ('"' < a ∧ b < '\\' ∨ '\\' < a)

instance (a b : Char) : Decidable (PlainRange a b) := inferInstanceAs (Decidable (_ ∧ _))

theorem PlainRange.isPlain {a b c : Char} (h : PlainRange a b) (hc : a.toNat ≤ c.toNat ∧ c.toNat ≤ b.toNat) :
    IsPlain c := by
  have ne {d : Char} (hd : c.toNat ≠ d.toNat) : c ≠ d := fun heq => hd (congrArg Char.toNat heq)
  obtain ⟨-, ⟨ha, hb⟩ | ha⟩ := h
  · have ha : 34 < a.toNat := ha
    have hb : b.toNat < 92 := hb
    exact ⟨by omega, ne (show c.toNat ≠ 34 by omega), ne (show c.toNat ≠ 92 by omega)⟩
  · have ha : 92 < a.toNat := ha
    exact ⟨by omega, ne (show c.toNat ≠ 34 by omega), ne (show c.toNat ≠ 92 by omega)⟩

theorem single_le_char {S : Set Char} (h : ∀ c ∈ S, IsPlain c) : Language.single S ≤ Json.Standard.char∗ := by
  rintro _ ⟨c, hc, rfl⟩
  exact le_kstar (a := Json.Standard.char) (Or.inl ⟨c, h c hc, rfl⟩)

theorem singleton_le_char {c : Char} (h : IsPlain c) : {[c]} ≤ Json.Standard.char∗ := by
  rw [← Language.single_singleton]
  exact single_le_char (by simpa using h)

/-! ## Reading a pattern from the left -/

/-- Where in a pattern a character stands. -/
inductive Place
  | outside
  /-- After an opening parenthesis. -/
  | opened
  /-- After a backslash. -/
  | escaped
  /-- After an opening bracket. -/
  | first
  /-- In brackets, after a member that a range may start with if it is given. -/
  | within (last : Option Char)
  /-- In brackets, after a hyphen that may make a range with the member before it. -/
  | hyphen (last : Option Char)

namespace Place

/-- The place after a character outside brackets. -/
def afterOutside (c : Char) : Option Place :=
  if c = '\\' then some .escaped
  else if c = '.' ∨ ¬ IsPlain c then none
  else if c = '[' then some .first
  else if c = '(' then some .opened
  else some .outside

/-- The place after a character in brackets. -/
def afterWithin (last : Option Char) (c : Char) : Option Place :=
  if c = ']' then some .outside
  else if c = '-' then some (.hyphen last)
  else if IsPlain c then some (.within (some c))
  else none

/-- The place after a character, if the pattern still has plain characters only. Of the escapes, there may be
those for digits and points. -/
def next (c : Char) : Place → Option Place
  | .outside => afterOutside c
  | .opened => if c = '?' then none else afterOutside c
  | .escaped => if c = 'd' ∨ c = '.' then some .outside else none
  | .first => if c = '^' ∨ c = ']' then none else afterWithin none c
  | .within last => afterWithin last c
  | .hyphen last =>
    if c = ']' then some .outside
    else if last.any fun a => PlainRange a c then some (.within none)
    else none

/-- The place after some characters. -/
def read : Place → List Char → Option Place
  | place, [] => some place
  | place, c :: cs => (next c place).bind fun place => read place cs

end Place

/-- A pattern is seen to have plain characters only. -/
def HasPlainChars (cs : List Char) : Prop := (Place.outside.read cs).isSome = true

instance (cs : List Char) : Decidable (HasPlainChars cs) := inferInstanceAs (Decidable (_ = true))

section

variable {place : Place} {last : Option Char} {c : Char} {cs ds : List Char}

namespace Place

theorem read_append (cs ds : List Char) : ∀ place : Place,
    place.read (cs ++ ds) = (place.read cs).bind fun place => place.read ds := by
  induction cs with
  | nil => exact fun _ => rfl
  | cons c cs ih =>
    intro place
    rw [List.cons_append, read, read, Option.bind_assoc]
    exact congrArg _ (funext ih)

theorem read_append_eq_some {start : Place} : start.read (cs ++ ds) = some place ↔
    ∃ mid, start.read cs = some mid ∧ mid.read ds = some place := by
  rw [read_append, Option.bind_eq_some_iff]

theorem afterOutside_eq_some (hc : c ∉ ['\\', '[', '(']) :
    afterOutside c = some place ↔ (c ≠ '.' ∧ IsPlain c) ∧ .outside = place := by
  simp only [List.mem_cons, List.not_mem_nil, or_false, not_or] at hc
  simp only [afterOutside, if_neg hc.1, if_neg hc.2.1, if_neg hc.2.2]
  by_cases hdot : c = '.' <;> by_cases hplain : IsPlain c <;> simp [hdot, hplain]

/-- Only backslashes, brackets and parentheses lead to other places. -/
theorem eq_outside_of_read (h : ∀ c ∈ cs, c ∉ ['\\', '[', '(']) (hread : Place.outside.read cs = some place) :
    place = .outside := by
  induction cs with
  | nil => exact (Option.some.inj hread).symm
  | cons c cs ih =>
    obtain ⟨hc, hcs⟩ := List.forall_mem_cons.1 h
    obtain ⟨mid, hmid, hread⟩ := Option.bind_eq_some_iff.1 hread
    obtain ⟨-, rfl⟩ := (afterOutside_eq_some hc).1 hmid
    exact ih hcs hread

theorem read_within_close : (within last).read (']' :: cs) = Place.outside.read cs := by
  simp [read, next, afterWithin]

theorem read_within_hyphen : (within last).read ('-' :: cs) = (hyphen last).read cs := by
  simp [read, next, afterWithin]

theorem read_within_cons (hclose : c ≠ ']') (hhyphen : c ≠ '-') :
    (within last).read (c :: cs) = some place ↔ IsPlain c ∧ (within (some c)).read cs = some place := by
  simp only [read, next, afterWithin, if_neg hclose, if_neg hhyphen]
  split <;> simp_all

theorem read_hyphen_close : (hyphen last).read (']' :: cs) = Place.outside.read cs := by
  simp [read, next]

theorem read_hyphen_cons (hclose : c ≠ ']') : (hyphen last).read (c :: cs) = some place ↔
    (∃ a ∈ last, PlainRange a c) ∧ (within none).read cs = some place := by
  simp only [read, next, if_neg hclose]
  cases last with
  | none => simp
  | some a => by_cases h : PlainRange a c <;> simp [h]

theorem not_isPlain_backslash : ¬ IsPlain '\\' := fun h => h.2.2 rfl

/-- There are no escapes in brackets. -/
theorem not_read_within_backslash : (within last).read ('\\' :: cs) ≠ some place :=
  fun h => not_isPlain_backslash ((read_within_cons (by decide) (by decide)).1 h).1

theorem not_read_hyphen_backslash : (hyphen last).read ('\\' :: cs) ≠ some place := by
  intro h
  obtain ⟨⟨a, -, ha⟩, -⟩ := (read_hyphen_cons (by decide)).1 h
  exact not_isPlain_backslash ha.1

end Place

/-! ## Classes -/

theorem Point.plain_or_escaped {ps : List Char} {n : Nat} (h : Point ps n) :
    (∃ c : Char, ps = [c] ∧ n = c.toNat) ∨ ∃ more, ps = '\\' :: more := by
  cases h with
  | @plain c => exact Or.inl ⟨c, rfl, rfl⟩
  | backspace => exact Or.inr ⟨['b'], rfl⟩
  | @escaped cs _ => exact Or.inr ⟨cs, rfl⟩

theorem Members.exists_cons {first : Bool} {S : Set Char} (h : Members first cs S) : ∃ c rest, cs = c :: rest := by
  have point {ps rest : List Char} {n : Nat} (h : Point ps n) : ∃ c cs, ps ++ rest = c :: cs := by
    obtain ⟨c, rfl, -⟩ | ⟨more, rfl⟩ := h.plain_or_escaped
    · exact ⟨c, rest, rfl⟩
    · exact ⟨'\\', more ++ rest, rfl⟩
  cases h with
  | close => exact ⟨_, _, rfl⟩
  | shorthand => exact ⟨_, _, rfl⟩
  | range h => exact point h
  | single h => exact point h

/-- A closing bracket that is not in first place ends a class. -/
theorem Members.eq_close {S : Set Char} (h : Members false (']' :: cs) S) : cs = [] ∧ S = ∅ := by
  have point {ps rest : List Char} {n : Nat} (h : Point ps n) (heq : ']' :: cs = ps ++ rest) : ps = [']'] := by
    obtain ⟨c, rfl, -⟩ | ⟨more, rfl⟩ := h.plain_or_escaped
    · rw [(List.cons.inj heq).1]
    · exact absurd (List.cons.inj heq).1 (by decide)
  generalize hcs : ']' :: cs = ds at h
  generalize hfirst : false = first at h
  cases h with
  | close => exact ⟨(List.cons.inj hcs).2, rfl⟩
  | shorthand => exact absurd (List.cons.inj hcs).1 (by decide)
  | range h hclose => exact absurd (hfirst.trans (hclose (point h hcs))) (by decide)
  | single h hclose => exact absurd (hfirst.trans (hclose (point h hcs))) (by decide)

/-- A class that is read from the left has plain characters only. A hyphen after a member that a range may start
with makes no range only in last place. -/
theorem Members.plain {first : Bool} {S : Set Char} (h : Members first cs S) : ∀ {last place},
    (first = true → cs.head? ≠ some ']') → (last ≠ none → ∀ c rest, cs = '-' :: c :: rest → c = ']') →
      (Place.within last).read cs = some place → place = .outside ∧ ∀ c ∈ S, IsPlain c := by
  induction h with
  | close =>
    intro last place _ _ hread
    rw [Place.read_within_close] at hread
    exact ⟨(Option.some.inj hread).symm, fun _ h => h.elim⟩
  | shorthand => exact fun _ _ hread => absurd hread Place.not_read_within_backslash
  | @range first ps m qs n cs S hps hclose hqs hclose' hle hmore ih =>
    intro last place hfirst hlast hread
    obtain ⟨c, rfl, rfl⟩ | ⟨more, rfl⟩ := hps.plain_or_escaped
    swap
    · exact absurd hread Place.not_read_within_backslash
    have hc : c ≠ ']' := by
      rintro rfl
      exact hfirst (hclose rfl) rfl
    simp only [List.singleton_append] at hread hlast
    by_cases hhyphen : c = '-'
    · subst hhyphen
      rw [Place.read_within_hyphen, Place.read_hyphen_cons (by decide)] at hread
      obtain ⟨⟨a, ha, -⟩, -⟩ := hread
      exact absurd (hlast (by rintro rfl; cases ha) _ _ rfl) (by decide)
    obtain ⟨-, hread⟩ := (Place.read_within_cons hc hhyphen).1 hread
    rw [Place.read_within_hyphen] at hread
    obtain ⟨d, rfl, rfl⟩ | ⟨more, rfl⟩ := hqs.plain_or_escaped
    swap
    · exact absurd hread Place.not_read_hyphen_backslash
    have hd : d ≠ ']' := fun h => hclose' (by rw [h])
    obtain ⟨⟨_, ⟨⟩, hrange⟩, hread⟩ := (Place.read_hyphen_cons hd).1 hread
    obtain ⟨hplace, hS⟩ := ih (by simp) (by simp) hread
    exact ⟨hplace, fun x hx => hx.elim hrange.isPlain (hS x)⟩
  | @single first ps n cs S hps hclose hhyphen hmore ih =>
    intro last place hfirst hlast hread
    obtain ⟨c, rfl, rfl⟩ | ⟨more, rfl⟩ := hps.plain_or_escaped
    swap
    · exact absurd hread Place.not_read_within_backslash
    have hc : c ≠ ']' := by
      rintro rfl
      exact hfirst (hclose rfl) rfl
    have own (h : IsPlain c) : ∀ x ∈ ({x | x.toNat = c.toNat} : Set Char), IsPlain x := by
      intro x hx
      obtain rfl : x = c := Char.toNat_inj.1 hx
      exact h
    simp only [List.singleton_append] at hread hlast
    by_cases hdash : c = '-'
    · subst hdash
      rw [Place.read_within_hyphen] at hread
      obtain ⟨d, rest, rfl⟩ := hmore.exists_cons
      -- no member starts a range, so the class ends after the hyphen
      obtain rfl : d = ']' := by
        by_contra hd
        obtain ⟨⟨a, ha, -⟩, -⟩ := (Place.read_hyphen_cons hd).1 hread
        exact hd (hlast (by rintro rfl; cases ha) _ _ rfl)
      obtain ⟨rfl, rfl⟩ := hmore.eq_close
      rw [Place.read_hyphen_close] at hread
      exact ⟨(Option.some.inj hread).symm, fun x hx => hx.elim (own (by decide) x) fun h => h.elim⟩
    · obtain ⟨hplain, hread⟩ := (Place.read_within_cons hc hdash).1 hread
      obtain ⟨hplace, hS⟩ := ih (by simp) (fun _ => hhyphen) hread
      exact ⟨hplace, fun x hx => hx.elim (own hplain x) (hS x)⟩

/-! ## Patterns -/

theorem copies_le_char {K : Language Char} (h : K ≤ Json.Standard.char∗) (least : Nat) (most : Option Nat) :
    Language.copies K least most ≤ Json.Standard.char∗ :=
  (Language.copies_le_kstar K least most).trans ((kstar_mono h).trans (kstar_idem _).le)

theorem mul_le_char {K K' : Language Char} (h : K ≤ Json.Standard.char∗) (h' : K' ≤ Json.Standard.char∗) :
    K * K' ≤ Json.Standard.char∗ :=
  (mul_le_mul' h h').trans (kstar_mul_kstar _).le

theorem Times.chars {qs : List Char} {least : Nat} {most : Option Nat} (h : Times qs least most) :
    ∀ c ∈ qs, c ∉ ['\\', '[', '('] := by
  have digit {ds : List Char} {n : Nat} (h : Digits ds n) : ∀ c ∈ ds, c ∉ ['\\', '[', '('] := by
    intro c hc hmem
    have := h.2.1 c hc
    simp only [List.mem_cons, List.not_mem_nil, or_false] at hmem
    rcases hmem with rfl | rfl | rfl <;> cases this
  cases h with
  | star | plus | question => simp
  | exactly h =>
    exact List.forall_mem_cons.2 ⟨by simp, List.forall_mem_append.2 ⟨digit h, by simp⟩⟩
  | atLeast h =>
    exact List.forall_mem_cons.2 ⟨by simp, List.forall_mem_append.2 ⟨digit h, by simp⟩⟩
  | between h h' =>
    exact List.forall_mem_cons.2 ⟨by simp, List.forall_mem_append.2 ⟨digit h,
      List.forall_mem_cons.2 ⟨by simp, List.forall_mem_append.2 ⟨digit h', by simp⟩⟩⟩⟩

theorem Place.read_escaped {e : Char} (h : Place.escaped.read (e :: cs) = some place) :
    (e = 'd' ∨ e = '.') ∧ Place.outside.read cs = some place := by
  simp only [Place.read, Place.next] at h
  split at h
  · exact ⟨‹_›, h⟩
  · cases h

/-- The only class that an escape may stand for is that of the digits. -/
theorem plain_of_shorthand {e : Char} {set : CharClass} (he : (e, set) ∈ shorthands)
    (hread : Place.escaped.read [e] = some place) : place = .outside ∧ ∀ c ∈ set.chars, IsPlain c := by
  obtain ⟨hd | hd, hread⟩ := Place.read_escaped hread <;> subst hd
  · obtain rfl : set = ⟨false, digitRanges⟩ := by simpa [shorthands] using he
    refine ⟨(Option.some.inj hread).symm, fun c hc => ?_⟩
    have hc : 0x30 ≤ c.toNat ∧ c.toNat ≤ 0x39 := by simpa [CharClass.mem_chars, digitRanges] using hc
    exact PlainRange.isPlain (a := '0') (b := '9') (by decide) hc
  · simp [shorthands] at he

/-- The only character that an escape may stand for is the point. -/
theorem Escaped.plain {n : Nat} (h : Escaped refused cs n) (hread : Place.escaped.read cs = some place) :
    place = .outside ∧ n = '.'.toNat := by
  cases h with
  | control he =>
    obtain ⟨hd | hd, -⟩ := Place.read_escaped hread <;> subst hd <;> simp [controls] at he
  | byte | short | braced =>
    obtain ⟨hd | hd, -⟩ := Place.read_escaped hread <;> cases hd
  | own hletters _ =>
    obtain ⟨hd | hd, hread⟩ := Place.read_escaped hread <;> subst hd
    · simp [letters, controls, shorthands] at hletters
    · exact ⟨(Option.some.inj hread).symm, rfl⟩

/-- If characters are read from the left as a whole, what they describe may stand between quotes. -/
def ReadsPlain (cs : List Char) (K : Language Char) : Prop :=
  ∀ place, Place.outside.read cs = some place → place = .outside ∧ K ≤ Json.Standard.char∗

section

variable {ds : List Char} {K K' : Language Char}

theorem readsPlain_nil : ReadsPlain [] 1 :=
  fun _ hread => ⟨(Option.some.inj hread).symm, one_le_kstar⟩

theorem ReadsPlain.append (h : ReadsPlain cs K) (h' : ReadsPlain ds K') (hread : Place.outside.read (cs ++ ds) = some place) :
    place = .outside ∧ K ≤ Json.Standard.char∗ ∧ K' ≤ Json.Standard.char∗ := by
  obtain ⟨mid, hread, hread'⟩ := Place.read_append_eq_some.1 hread
  obtain ⟨rfl, hK⟩ := h _ hread
  obtain ⟨rfl, hK'⟩ := h' _ hread'
  exact ⟨rfl, hK, hK'⟩

theorem ReadsPlain.mul (h : ReadsPlain cs K) (h' : ReadsPlain ds K') : ReadsPlain (cs ++ ds) (K * K') := by
  intro place hread
  obtain ⟨hplace, hK, hK'⟩ := h.append h' hread
  exact ⟨hplace, mul_le_char hK hK'⟩

theorem ReadsPlain.add (h : ReadsPlain cs K) (h' : ReadsPlain ds K') : ReadsPlain (cs ++ ds) (K + K') := by
  intro place hread
  obtain ⟨hplace, hK, hK'⟩ := h.append h' hread
  exact ⟨hplace, sup_le hK hK'⟩

/-- Characters that lead to no other place can stand in front. -/
theorem ReadsPlain.after {marks : List Char} (hmarks : ∀ c ∈ marks, c ∉ ['\\', '[', '(']) (h : ReadsPlain cs K) :
    ReadsPlain (marks ++ cs) K := by
  intro place hread
  obtain ⟨mid, hread, hread'⟩ := Place.read_append_eq_some.1 hread
  obtain rfl := Place.eq_outside_of_read hmarks hread
  exact h _ hread'

theorem readsPlain_char {c : Char} (hc : c ∉ specials) : ReadsPlain [c] {[c]} := by
  intro place hread
  obtain ⟨mid, hmid, hread⟩ := Option.bind_eq_some_iff.1 hread
  have hc : c ∉ ['\\', '[', '('] := fun h => hc (by revert h; simp [specials]; tauto)
  obtain ⟨⟨-, hplain⟩, rfl⟩ := (Place.afterOutside_eq_some hc).1 hmid
  exact ⟨(Option.some.inj hread).symm, singleton_le_char hplain⟩

theorem readsPlain_oneOf {S : Set Char} (hhead : cs.head? ≠ some '^') (h : Members true cs S) :
    ReadsPlain ('[' :: cs) (Language.single S) := by
  intro place hread
  obtain ⟨c, rest, rfl⟩ := h.exists_cons
  have hread : Place.first.read (c :: rest) = some place := hread
  have hclose : c ≠ ']' := by
    rintro rfl
    cases hread
  have hcaret : c ≠ '^' := fun h => hhead (by rw [h]; rfl)
  have hread : (Place.within none).read (c :: rest) = some place := by
    simpa only [Place.read, Place.next, hclose, hcaret, or_self, if_false] using hread
  obtain ⟨hplace, hS⟩ := h.plain (fun _ => by simpa using hclose) (fun h => absurd rfl h) hread
  exact ⟨hplace, single_le_char hS⟩

theorem ReadsPlain.group {head : List Char} (hhead : GroupHead head) (h : ReadsPlain cs K) :
    ReadsPlain ('(' :: (head ++ (cs ++ [')']))) K := by
  intro place hread
  have hread : Place.opened.read (head ++ (cs ++ [')'])) = some place := hread
  cases hhead with
  | plain | named => cases hread
  | capturing =>
    have hread : Place.outside.read (cs ++ [')']) = some place := by
      cases cs with
      | nil => exact hread
      | cons c cs =>
        simp only [List.nil_append, List.cons_append, Place.read, Place.next] at hread
        split at hread
        · cases hread
        · exact hread
    have close : ReadsPlain [')'] 1 := readsPlain_nil.after (show ∀ c ∈ [')'], c ∉ ['\\', '[', '('] by simp)
    exact mul_one K ▸ h.mul close place hread

end

/-- What a part of a pattern describes may stand between quotes if the part is read from the left. -/
theorem Describes.plain {part : Part} {K : Language Char} (h : Describes part cs K) : ReadsPlain cs K := by
  induction h with
  | char hc => exact readsPlain_char hc
  | dot =>
    intro place hread
    simp [Place.read, Place.next, Place.afterOutside] at hread
  | shorthand he =>
    intro place hread
    obtain ⟨hplace, hset⟩ := plain_of_shorthand he hread
    exact ⟨hplace, single_le_char hset⟩
  | @escaped cs c h =>
    intro place hread
    obtain ⟨hplace, hc⟩ := h.plain hread
    obtain rfl : c = '.' := Char.toNat_inj.1 hc
    exact ⟨hplace, singleton_le_char (by decide)⟩
  | oneOf hhead hmem => exact readsPlain_oneOf hhead hmem
  | noneOf =>
    intro place hread
    cases hread
  | group hhead _ ih => exact ih.group hhead
  | nil => exact readsPlain_nil
  | item _ _ _ ih ih' => exact ih.mul ih'
  | @repeated cs K qs least most mark ds K' _ htimes hmark _ ih ih' =>
    have hmarks : ∀ c ∈ qs ++ mark, c ∉ ['\\', '[', '('] := by
      refine List.forall_mem_append.2 ⟨htimes.chars, ?_⟩
      rcases List.mem_pair.1 hmark with rfl | rfl <;> simp
    have copies : ReadsPlain cs (Language.copies K least most) :=
      fun place hread => (ih place hread).imp_right fun hK => copies_le_char hK least most
    exact List.append_assoc qs mark ds ▸ copies.mul (ih'.after hmarks)
  | only _ ih => exact ih
  | bar _ _ ih ih' => exact ih.add (ih'.after (show ∀ c ∈ ['|'], c ∉ ['\\', '[', '('] by simp))

/-- A pattern that is seen to have plain characters only matches texts that may stand between quotes. -/
theorem Pattern.language_le_of_hasPlainChars {text : String} {p : Pattern} (hparse : Pattern.parse text = .ok p)
    (h : HasPlainChars text.toList) : p.language ≤ Json.Standard.char∗ := by
  obtain ⟨start, hstart, body, finish, -, hbody, htext⟩ := (Pattern.parse_sound hparse).1
  obtain ⟨place, hread⟩ := Option.isSome_iff_exists.1 h
  rw [htext] at hread
  obtain ⟨mid, hmid, hread⟩ := Place.read_append_eq_some.1 hread
  have hchars : ∀ c ∈ start, c ∉ ['\\', '[', '('] := by
    rcases List.mem_pair.1 hstart with rfl | rfl <;> simp
  obtain rfl := Place.eq_outside_of_read hchars hmid
  obtain ⟨mid, hread, -⟩ := Place.read_append_eq_some.1 hread
  exact (hbody.plain _ hread).2

end

end ConstrainedDecoding.Regex

namespace ConstrainedDecoding.Schema

/-- The patterns of the string formats have plain characters only. -/
theorem hasPlainChars_of_formatPattern? {format text : String} (h : formatPattern? format = some text) :
    Regex.HasPlainChars text.toList := by
  unfold formatPattern? at h
  dsimp only at h
  split_ifs at h <;> obtain rfl := Option.some.inj h <;> decide +kernel

end ConstrainedDecoding.Schema
