import ConstrainedDecoding.Proofs.SchemaTexts

/-!
# What arrays and objects are put together from

An array or an object is laid out as its parts between brackets, with a separator between each two. The
sources of arrays describe all that have the right number of parts, and the sources of objects all whose
members are picked from the declared ones in their order, before any number of extra ones.
-/
namespace ConstrainedDecoding

open Computability

/-! ## Separated lists -/

section

variable {α : Type} {S L : Language α} {Ls : List (Language α)}

/-- Texts of languages one after the other, with a text of the separator between each two. -/
def Language.separated (S : Language α) (Ls : List (Language α)) : Language α := (Ls.intersperse S).prod

@[simp] theorem Language.separated_singleton (S L : Language α) : separated S [L] = L := by simp [separated]

/-- All parts but the first come after a separator. -/
theorem Language.separated_cons (S L : Language α) (Ls : List (Language α)) :
    separated S (L :: Ls) = L * (Ls.map (S * ·)).prod := by
  induction Ls generalizing L with
  | nil => simp
  | cons L' Ls ih =>
    calc separated S (L :: L' :: Ls) = L * (S * separated S (L' :: Ls)) := by simp [separated]
      _ = L * ((L' :: Ls).map (S * ·)).prod := by rw [ih, List.map_cons, List.prod_cons, mul_assoc]

theorem Language.prod_map_replicate (S L : Language α) (n : Nat) :
    ((List.replicate n L).map (S * ·)).prod = (S * L) ^ n := by
  rw [List.map_replicate, List.prod_replicate]

/-- Equal parts at the end come each after a separator. -/
theorem Language.separated_append_replicate (S L : Language α) (hne : Ls ≠ []) (n : Nat) :
    separated S (Ls ++ List.replicate n L) = separated S Ls * (S * L) ^ n := by
  obtain ⟨first, rest, rfl⟩ := List.exists_cons_of_ne_nil hne
  rw [List.cons_append, separated_cons, separated_cons, List.map_append, List.prod_append,
    prod_map_replicate, mul_assoc]

/-- Copies that something stands around are so many copies. -/
theorem Language.mem_mul_copies_mul {A C : Language α} {least : Nat} {most : Option Nat} {w : List α} :
    w ∈ A * copies L least most * C ↔ ∃ n, least ≤ n ∧ (∀ m ∈ most, n ≤ m) ∧ w ∈ A * L ^ n * C := by
  constructor
  · rintro ⟨_, ⟨u, hu, v, ⟨n, hleast, hmost, hv⟩, rfl⟩, x, hx, rfl⟩
    exact ⟨n, hleast, hmost, _, ⟨u, hu, v, hv, rfl⟩, x, hx, rfl⟩
  · rintro ⟨n, hleast, hmost, _, ⟨u, hu, v, hv, rfl⟩, x, hx, rfl⟩
    exact ⟨_, ⟨u, hu, v, ⟨n, hleast, hmost, hv⟩, rfl⟩, x, hx, rfl⟩

/-- Equal parts, at least one, come one first and then each after a separator. -/
theorem Language.mem_separated_replicate {w : List α} :
    w ∈ L * (S * L)∗ ↔ ∃ n : Nat, w ∈ separated S (List.replicate (n + 1) L) := by
  simp only [List.replicate_succ, separated_cons, prod_map_replicate]
  rw [kstar_eq_copies, ← mul_one (_ * _), mem_mul_copies_mul]
  simp

theorem Language.flatten_mem_prod {ts : List (List α)} (h : List.Forall₂ (· ∈ ·) ts Ls) : ts.flatten ∈ Ls.prod := by
  induction h with
  | nil => exact rfl
  | cons h _ ih => exact ⟨_, h, _, ih, rfl⟩

/-- Texts of the parts, with a text of the separator between each two. -/
theorem Language.flatten_mem_separated {separator : List α} (hS : separator ∈ S) {ts : List (List α)}
    (h : List.Forall₂ (· ∈ ·) ts Ls) : (ts.intersperse separator).flatten ∈ separated S Ls := by
  refine flatten_mem_prod ?_
  induction h with
  | nil => exact .nil
  | @cons t L ts Ls h hrest ih =>
    cases hrest with
    | nil => exact .cons h .nil
    | cons => exact .cons h (.cons hS ih)

end

end ConstrainedDecoding

namespace ConstrainedDecoding.Schema

open Ebnf Computability
open Json (Value)

/-! ## Layouts -/

/-- The texts of the sources of a layout, in which every name stands for white space. -/
def laid (B : Language Char) (ss : List Source) : Language Char := Source.sequenceLanguage (fun _ => B) ss

/-- The rule for white space describes it, if the layout has white space between tokens. -/
def Layout.Spaced (l : Layout) (K : Meaning) (B : Language Char) : Prop :=
  match l with
  | .anyWhitespace .. => K "ws" = B
  | .fixed .. => True

namespace Layout.Spaced

variable {l : Layout} {K : Meaning} {B : Language Char} {depth : Nat}

theorem opening (h : l.Spaced K B) (bracket : String) :
    Source.sequenceLanguage K (l.opening bracket depth) = laid B (l.opening bracket depth) := by
  cases l with
  | anyWhitespace => simp [laid, Layout.opening, Layout.blanks, show K "ws" = B from h]
  | fixed _ _ indent => cases indent <;> rfl

theorem closing (h : l.Spaced K B) (bracket : String) :
    Source.sequenceLanguage K (l.closing bracket depth) = laid B (l.closing bracket depth) := by
  cases l with
  | anyWhitespace => simp [laid, Layout.closing, Layout.blanks, show K "ws" = B from h]
  | fixed _ _ indent => cases indent <;> rfl

theorem emptyContainer (h : l.Spaced K B) (a b : String) :
    Source.sequenceLanguage K (l.emptyContainer a b) = laid B (l.emptyContainer a b) := by
  cases l with
  | anyWhitespace => simp [laid, Layout.emptyContainer, Layout.blanks, show K "ws" = B from h]
  | fixed => rfl

theorem itemSeparator (h : l.Spaced K B) :
    Source.sequenceLanguage K (l.itemSeparator depth) = laid B (l.itemSeparator depth) := by
  cases l with
  | anyWhitespace => simp [laid, Layout.itemSeparator, Layout.blanks, show K "ws" = B from h]
  | fixed _ _ indent => cases indent <;> rfl

theorem keyValueSeparator (h : l.Spaced K B) :
    Source.sequenceLanguage K l.keyValueSeparator = laid B l.keyValueSeparator := by
  cases l with
  | anyWhitespace => simp [laid, Layout.keyValueSeparator, Layout.blanks, show K "ws" = B from h]
  | fixed => rfl

theorem flat (h : l.Spaced K B) : l.flat.Spaced K B := by
  cases l with
  | anyWhitespace => exact h
  | fixed => trivial

end Layout.Spaced

/-- The texts of a container at a level, put together from its parts. -/
def containerTexts (l : Layout) (B : Language Char) (a b : String) (depth : Nat) : List (Language Char) → Language Char
  | [] => laid B (l.emptyContainer a b)
  | part :: parts => laid B (l.opening a depth) *
      Language.separated (laid B (l.itemSeparator depth)) (part :: parts) * laid B (l.closing b depth)

theorem containerTexts_of_ne_nil {l : Layout} {B : Language Char} {a b : String} {depth : Nat}
    {parts : List (Language Char)} (hne : parts ≠ []) : containerTexts l B a b depth parts =
      laid B (l.opening a depth) * Language.separated (laid B (l.itemSeparator depth)) parts * laid B (l.closing b depth) := by
  obtain ⟨part, parts, rfl⟩ := List.exists_cons_of_ne_nil hne
  rfl

/-- Where white space may be anywhere, it may be nowhere. -/
theorem compact_mem_containerTexts {B : Language Char} (hB : [] ∈ B) {item keyValue a b : String} {depth : Nat}
    {ts : List (List Char)} {parts : List (Language Char)} (h : List.Forall₂ (· ∈ ·) ts parts) :
    a.toList ++ (ts.intersperse item.toList).flatten ++ b.toList ∈
      containerTexts (.anyWhitespace item keyValue) B a b depth parts := by
  have beside (text : String) : text.toList ∈ B * {text.toList} ∧ text.toList ∈ {text.toList} * B :=
    ⟨⟨[], hB, _, rfl, rfl⟩, ⟨_, rfl, [], hB, List.append_nil _⟩⟩
  cases h with
  | nil =>
    rw [containerTexts, laid]
    simp only [Layout.emptyContainer, Layout.blanks, Source.sequenceLanguage_cons, Source.sequenceLanguage_nil, mul_one]
    exact ⟨_, rfl, _, (beside b).1, by simp⟩
  | cons h hrest =>
    have opening : laid B ((Layout.anyWhitespace item keyValue).opening a depth) = {a.toList} * B := by
      simp [laid, Layout.opening, Layout.blanks]
    have closing : laid B ((Layout.anyWhitespace item keyValue).closing b depth) = B * {b.toList} := by
      simp [laid, Layout.closing, Layout.blanks]
    have separator : laid B ((Layout.anyWhitespace item keyValue).itemSeparator depth) = B * ({item.toList} * B) := by
      simp [laid, Layout.itemSeparator, Layout.blanks]
    have between : item.toList ∈ B * ({item.toList} * B) := ⟨[], hB, _, (beside item).2, rfl⟩
    rw [containerTexts, opening, closing, separator]
    exact ⟨_, ⟨_, (beside a).2, _, Language.flatten_mem_separated between (.cons h hrest), rfl⟩, _, (beside b).1, rfl⟩

/-- The texts of arrays with parts of the languages `initial` in order and then any further parts of the
language `more`, where the number of parts is within bounds. -/
def arrayTexts (l : Layout) (B : Language Char) (depth : Nat) (initial : List (Language Char))
    (more : Option (Language Char)) (least : Nat) (most : Option Nat) : Language Char :=
  {text | ∃ n, least ≤ initial.length + n ∧ (∀ m ∈ most, initial.length + n ≤ m) ∧ (n ≠ 0 → more.isSome) ∧
    text ∈ containerTexts l B "[" "]" depth (initial ++ List.replicate n (more.getD 0))}

/-- Parts are picked from declared members: all that are required and any of the others, in their order, and
then any number of extra ones. -/
inductive Picked (extra : Option (Language Char)) : List (Language Char × Bool) → List (Language Char) → Prop
  | extras {n : Nat} : (n ≠ 0 → extra.isSome) → Picked extra [] (List.replicate n (extra.getD 0))
  | take {m members parts} : Picked extra members parts → Picked extra (m :: members) (m.1 :: parts)
  | skip {m members parts} : m.2 = false → Picked extra members parts → Picked extra (m :: members) parts

theorem picked_nil {extra : Option (Language Char)} {parts : List (Language Char)} : Picked extra [] parts ↔
    ∃ n, (n ≠ 0 → extra.isSome) ∧ parts = List.replicate n (extra.getD 0) := by
  constructor
  · rintro ⟨hn⟩
    exact ⟨_, hn, rfl⟩
  · rintro ⟨n, hn, rfl⟩
    exact .extras hn

/-- A member that may be first is taken or, unless it is required, left out. -/
theorem exists_picked_cons {extra : Option (Language Char)} {m : Language Char × Bool}
    {members : List (Language Char × Bool)} {P : List (Language Char) → Prop} :
    (∃ parts, Picked extra (m :: members) parts ∧ P parts) ↔
      (∃ parts, Picked extra members parts ∧ P (m.1 :: parts)) ∨
        m.2 = false ∧ ∃ parts, Picked extra members parts ∧ P parts := by
  constructor
  · rintro ⟨parts, h, hP⟩
    cases h with
    | take h => exact Or.inl ⟨_, h, hP⟩
    | skip hm h => exact Or.inr ⟨hm, _, h, hP⟩
  · rintro (⟨parts, h, hP⟩ | ⟨hm, parts, h, hP⟩)
    · exact ⟨_, .take h, hP⟩
    · exact ⟨parts, .skip hm h, hP⟩

/-- All members can be left out if none is required. -/
theorem picked_nothing {extra : Option (Language Char)} {members : List (Language Char × Bool)} :
    Picked extra members [] ↔ ∀ m ∈ members, m.2 = false := by
  constructor
  · intro h
    generalize hparts : [] = parts at h
    induction h with
    | extras => exact List.forall_mem_nil _
    | take => cases hparts
    | skip hm _ ih => exact List.forall_mem_cons.2 ⟨hm, ih hparts⟩
  · intro h
    induction members with
    | nil => exact .extras (n := 0) (by simp)
    | cons m members ih =>
      obtain ⟨hm, h⟩ := List.forall_mem_cons.1 h
      exact .skip hm (ih h)

section

variable {α : Type} {ms : List α} {required : α → Bool}

/-- What is picked are some of the members, in their order and with all that are required, and then extra ones. -/
theorem picked_map {extra : Option (Language Char)} {part : α → Language Char} {parts : List (Language Char)} :
    Picked extra (ms.map fun m => (part m, required m)) parts ↔
      ∃ (chosen : List α) (n : Nat), chosen.Sublist ms ∧ chosen.filter required = ms.filter required ∧ (n ≠ 0 → extra.isSome) ∧
        parts = chosen.map part ++ List.replicate n (extra.getD 0) := by
  constructor
  · intro h
    generalize hmembers : ms.map (fun m => (part m, required m)) = members at h
    induction h generalizing ms with
    | @extras n hn =>
      obtain rfl := List.map_eq_nil_iff.1 hmembers
      exact ⟨[], n, .slnil, rfl, hn, rfl⟩
    | take _ ih =>
      obtain ⟨m, ms, rfl, rfl, rfl⟩ := List.map_eq_cons_iff.1 hmembers
      obtain ⟨chosen, n, hsub, hall, hn, rfl⟩ := ih rfl
      exact ⟨m :: chosen, n, hsub.cons_cons m, by simp only [List.filter_cons, hall], hn, rfl⟩
    | skip hm _ ih =>
      obtain ⟨m, ms, rfl, rfl, rfl⟩ := List.map_eq_cons_iff.1 hmembers
      obtain ⟨chosen, n, hsub, hall, hn, rfl⟩ := ih rfl
      exact ⟨chosen, n, hsub.cons m, by simp [show required m = false from hm, hall], hn, rfl⟩
  · rintro ⟨chosen, n, hsub, hall, hn, rfl⟩
    induction hsub with
    | slnil => exact .extras hn
    | @cons chosen ms m hsub ih =>
      -- a member that is left out is not required, since those that are chosen have no more than the others
      cases hm : required m with
      | false => exact .skip hm (ih (by simpa [List.filter_cons, hm] using hall))
      | true =>
        have hlength := (hsub.filter required).length_le
        rw [hall, List.filter_cons, if_pos hm] at hlength
        simp at hlength
    | @cons_cons chosen ms m hsub ih =>
      refine .take (ih ?_)
      cases hm : required m <;> simpa [List.filter_cons, hm] using hall

/-- All that are required are chosen, where no member is there twice. -/
theorem filter_eq_filter_iff {chosen : List α} (hsub : chosen.Sublist ms) (hnodup : ms.Nodup) :
    chosen.filter required = ms.filter required ↔ ∀ m ∈ ms, required m = true → m ∈ chosen := by
  constructor
  · intro h m hm hrequired
    have : m ∈ chosen.filter required := h ▸ List.mem_filter.2 ⟨hm, hrequired⟩
    exact (List.mem_filter.1 this).1
  · intro h
    refine (hsub.filter required).eq_of_length_le (List.subperm_of_subset (hnodup.filter _) fun m hm => ?_).length_le
    obtain ⟨hm, hrequired⟩ := List.mem_filter.1 hm
    exact List.mem_filter.2 ⟨h m hm hrequired, hrequired⟩

end

/-- The texts of objects with members that are picked, where an object without members may have to be allowed. -/
def objectTexts (l : Layout) (B : Language Char) (depth : Nat) (members : List (Language Char × Bool))
    (extra : Option (Language Char)) (mayBeEmpty : Bool) : Language Char :=
  {text | ∃ parts, Picked extra members parts ∧
    (parts = [] → mayBeEmpty = true ∨ members = [] ∧ extra = none) ∧
      text ∈ containerTexts l B "\x7b" "\x7d" depth parts}

/-! ## Arrays -/

section

variable {l : Layout} {K : Meaning} {B : Language Char} {depth : Nat} (hl : l.Spaced K B)

include hl

theorem language_container (a b : String) (body : List Source) (mayBeEmpty : Bool) :
    (container l a b depth body mayBeEmpty).language K =
      laid B (l.opening a depth) * Source.sequenceLanguage K body * laid B (l.closing b depth) +
        if mayBeEmpty then containerTexts l B a b depth [] else 0 := by
  have full : (Source.sequence (l.opening a depth ++ body ++ l.closing b depth)).language K =
      laid B (l.opening a depth) * Source.sequenceLanguage K body * laid B (l.closing b depth) := by
    rw [Source.language_sequence, Source.sequenceLanguage_append, Source.sequenceLanguage_append,
      hl.opening, hl.closing]
  unfold container
  dsimp only
  split
  · rw [Source.language_group, Source.choiceLanguage_cons, Source.choiceLanguage_cons, Source.choiceLanguage_nil,
      full, Source.language_sequence, hl.emptyContainer, add_zero]
    rfl
  · rw [full, add_zero]

omit hl in
/-- A repetition whose bounds are in order has the bounds that it was given. -/
theorem sequenceLanguage_repeated {s : Source} {least : Nat} {most : Option Nat} (h : ∀ m ∈ most, least ≤ m) :
    Source.sequenceLanguage K (s.repeated least most) = Language.copies (s.language K) least most := by
  unfold Source.repeated
  split
  · rename_i q hq
    obtain ⟨hleast, hmost⟩ := bounds_of_mem_ofBounds? hq
    simp [Source.language_quantified, hleast, hmost]
  · rename_i hq
    obtain rfl : most = some 0 := by
      unfold Quantifier.ofBounds? at hq
      split_ifs at hq with hmost
      · exact hmost
      · split at hq <;> cases hq
    obtain rfl : least = 0 := Nat.le_zero.1 (h 0 rfl)
    rw [Source.sequenceLanguage_nil, Language.copies_zero]

theorem language_separated {items : List Source} (hne : items ≠ []) :
    Source.sequenceLanguage K (separated (l.itemSeparator depth) items) =
      Language.separated (laid B (l.itemSeparator depth)) (items.map (·.language K)) := by
  fun_induction separated (l.itemSeparator depth) items with
  | case1 => exact absurd rfl hne
  | case2 item => simp
  | case3 item rest hrest ih =>
    rw [List.cons_append, Source.sequenceLanguage_cons, Source.sequenceLanguage_append, ih hrest, hl.itemSeparator]
    obtain ⟨next, rest, rfl⟩ := List.exists_cons_of_ne_nil hrest
    simp only [List.map_cons, Language.separated_cons, List.prod_cons, mul_assoc]

/-- An item after a separator, so many times. -/
theorem language_furtherItems (item : Source) {least : Nat} {most : Option Nat} (h : ∀ m ∈ most, least ≤ m) :
    Source.sequenceLanguage K (Source.repeated (.sequence (l.itemSeparator depth ++ [item])) least most) =
      Language.copies (laid B (l.itemSeparator depth) * item.language K) least most := by
  rw [sequenceLanguage_repeated h, Source.language_sequence, Source.sequenceLanguage_append, hl.itemSeparator,
    Source.sequenceLanguage_cons, Source.sequenceLanguage_nil, mul_one]

/-- Where no item may follow, the source of an array describes the arrays of the first items. -/
theorem language_arraySource_none {items : List Source} (least : Nat) (most : Option Nat) :
    (arraySource l depth items none least most).language K =
      containerTexts l B "[" "]" depth (items.map (·.language K)) := by
  cases items with
  | nil => exact hl.emptyContainer _ _
  | cons first rest =>
    have hne : first :: rest ≠ [] := List.cons_ne_nil _ _
    rw [arraySource, language_container hl, language_separated hl hne]
    · simp [containerTexts]
    · exact fun h => hne h

/-- A container with first items, and then a further item so many times. -/
theorem mem_language_further {ss : List Source} (hne : ss ≠ []) (item : Source) {least : Nat} {most : Option Nat}
    (h : ∀ m ∈ most, least ≤ m) (mayBeEmpty : Bool) {text : List Char} :
    text ∈ (container l "[" "]" depth (separated (l.itemSeparator depth) ss ++
        Source.repeated (.sequence (l.itemSeparator depth ++ [item])) least most) mayBeEmpty).language K ↔
      (∃ n, least ≤ n ∧ (∀ m ∈ most, n ≤ m) ∧
        text ∈ containerTexts l B "[" "]" depth (ss.map (·.language K) ++ List.replicate n (item.language K))) ∨
      mayBeEmpty = true ∧ text ∈ containerTexts l B "[" "]" depth [] := by
  have hne' : ss.map (·.language K) ≠ [] := by simpa using hne
  have parts (n : Nat) : containerTexts l B "[" "]" depth (ss.map (·.language K) ++ List.replicate n (item.language K)) = _ :=
    containerTexts_of_ne_nil (List.append_ne_nil_of_left_ne_nil hne' _)
  simp only [parts, Language.separated_append_replicate _ _ hne', ← mul_assoc]
  rw [language_container hl, Source.sequenceLanguage_append, language_separated hl hne,
    language_furtherItems hl item h, ← mul_assoc, Language.mem_add, Language.mem_mul_copies_mul]
  refine or_congr_right ?_
  cases mayBeEmpty
  · exact iff_of_false (Language.notMem_zero text) (by simp)
  · simp

/-- Where an item may follow, the source of an array describes the arrays with the right number of parts. -/
theorem language_arraySource_some {items : List Source} (item : Source) {least : Nat} {most : Option Nat}
    (hmost : ∀ m ∈ most, least ≤ m ∧ items.length < m) :
    (arraySource l depth items (some item) (least - items.length) (most.map (· - items.length))).language K =
      arrayTexts l B depth (items.map (·.language K)) (some (item.language K)) least most := by
  -- the bounds for the items that follow the first `k` ones
  have order (k : Nat) : ∀ m ∈ most.map (· - k), least - k ≤ m := by
    intro m hm
    obtain ⟨m', hm', rfl⟩ := Option.mem_map.1 hm
    exact Nat.sub_le_sub_right (hmost m' hm').1 k
  have below {k n : Nat} (hk : ∀ m ∈ most, k ≤ m) :
      (∀ m ∈ most.map (· - k), n ≤ m) ↔ ∀ m ∈ most, k + n ≤ m := by
    constructor
    · intro h m hm
      have := h (m - k) (Option.mem_map_of_mem _ hm)
      have := hk m hm
      omega
    · intro h m hm
      obtain ⟨m', hm', rfl⟩ := Option.mem_map.1 hm
      have := h m' hm'
      omega
  ext text
  cases items with
  | nil =>
    have first : ∀ m ∈ most, 1 ≤ m := fun m hm => (hmost m hm).2
    have source : arraySource l depth [] (some item) (least - 0) (most.map (· - 0)) =
        container l "[" "]" depth (separated (l.itemSeparator depth) [item] ++ Source.repeated
          (.sequence (l.itemSeparator depth ++ [item])) (least - 1) (most.map (· - 1))) (least = 0) := by
      simp [arraySource, separated]
    rw [List.length_nil, source, mem_language_further hl (List.cons_ne_nil _ _) item (order 1)]
    constructor
    · rintro (⟨n, hleast, hn, htext⟩ | ⟨hzero, htext⟩)
      · refine ⟨n + 1, by simp; omega, by simpa [Nat.add_comm] using (below first).1 hn, by simp, ?_⟩
        simpa [List.replicate_succ] using htext
      · exact ⟨0, by simpa using hzero, by simp, by simp, by simpa using htext⟩
    · rintro ⟨n, hleast, hn, -, htext⟩
      cases n with
      | zero => exact Or.inr ⟨by simpa using hleast, by simpa using htext⟩
      | succ n =>
        refine Or.inl ⟨n, by simp at hleast; omega, (below first).2 (by simpa [Nat.add_comm] using hn), ?_⟩
        simpa [List.replicate_succ] using htext
  | cons first rest =>
    generalize hitems : first :: rest = items at hmost
    have hne : items ≠ [] := hitems ▸ List.cons_ne_nil _ _
    have source : arraySource l depth items (some item) (least - items.length) (most.map (· - items.length)) =
        container l "[" "]" depth (separated (l.itemSeparator depth) items ++ Source.repeated
          (.sequence (l.itemSeparator depth ++ [item])) (least - items.length) (most.map (· - items.length))) false := by
      rw [arraySource]
      exact hne
    rw [source, mem_language_further hl hne item (order items.length)]
    have hlength : ∀ m ∈ most, items.length ≤ m := fun m hm => (hmost m hm).2.le
    simp only [arrayTexts, below hlength, Bool.false_eq_true, false_and, or_false, List.length_map]
    constructor
    · rintro ⟨n, hleast, hn, htext⟩
      exact ⟨n, by omega, hn, by simp, htext⟩
    · rintro ⟨n, hleast, hn, -, htext⟩
      exact ⟨n, by omega, hn, htext⟩

/-- The source of an array describes the arrays with the right number of parts. There is no source for further
items where the first ones are as many as there may be. -/
theorem language_arraySource {items : List Source} {item : Option Source} {more : Option (Language Char)}
    {least : Nat} {most : Option Nat} (hmost : ∀ m ∈ most, least ≤ m ∧ items.length ≤ m)
    (hmore : more = none → least ≤ items.length)
    (hitem : if most.map (· - items.length) = some 0 then item = none else item.map (·.language K) = more) :
    (arraySource l depth items item (least - items.length) (most.map (· - items.length))).language K =
      arrayTexts l B depth (items.map (·.language K)) more least most := by
  by_cases hfull : most = some items.length
  · have hfew : least ≤ items.length := (hmost _ hfull).1
    rw [if_pos (by rw [hfull]; simp)] at hitem
    rw [hitem, language_arraySource_none hl]
    ext text
    constructor
    · exact fun htext => ⟨0, by simpa using hfew, by simp [hfull], by simp, by simpa using htext⟩
    · rintro ⟨n, -, hn, -, htext⟩
      obtain rfl : n = 0 := by simpa using hn _ hfull
      simpa using htext
  · have hlt : ∀ m ∈ most, least ≤ m ∧ items.length < m := fun m hm =>
      ⟨(hmost m hm).1, lt_of_le_of_ne (hmost m hm).2 fun heq => hfull (heq ▸ hm)⟩
    rw [if_neg] at hitem
    · subst hitem
      cases item with
      | some item => exact language_arraySource_some hl item hlt
      | none =>
        rw [language_arraySource_none hl]
        ext text
        constructor
        · exact fun htext => ⟨0, by simpa using hmore rfl, fun m hm => by simpa using (hmost m hm).2, by simp,
            by simpa using htext⟩
        · rintro ⟨n, -, -, hn, htext⟩
          obtain rfl : n = 0 := by simpa using hn
          simpa using htext
    · intro hzero
      obtain ⟨m, hm, hsub⟩ := Option.map_eq_some_iff.1 hzero
      have := (hlt m hm).2
      omega

/-! ## Objects -/

/-- What a member is, as a part of an object, and whether it is required. -/
def Member.part (K : Meaning) (m : Member) : Language Char × Bool := (Source.sequenceLanguage K m.sources, m.required)

theorem language_extraMembers (e : List Source) : (extraMembers (l.itemSeparator depth) e).language K =
    (laid B (l.itemSeparator depth) * Source.sequenceLanguage K e)∗ := by
  simp only [extraMembers, Source.language_star, Source.language_group, Source.choiceLanguage_cons,
    Source.choiceLanguage_nil, Source.language_sequence, Source.sequenceLanguage_append, hl.itemSeparator, add_zero]

omit hl in
/-- Something stands around each of the lists of parts that a language is put together from. -/
theorem mem_mul_mul_of_parts {A L C : Language Char} {P : List (Language Char) → Prop}
    {f : List (Language Char) → Language Char} (h : ∀ v, v ∈ L ↔ ∃ parts, P parts ∧ v ∈ f parts) {text : List Char} :
    text ∈ A * L * C ↔ ∃ parts, P parts ∧ text ∈ A * f parts * C := by
  constructor
  · rintro ⟨_, ⟨u, hu, v, hv, rfl⟩, w, hw, rfl⟩
    obtain ⟨parts, hparts, hv⟩ := (h v).1 hv
    exact ⟨parts, hparts, _, ⟨u, hu, v, hv, rfl⟩, w, hw, rfl⟩
  · rintro ⟨parts, hparts, _, ⟨u, hu, v, hv, rfl⟩, w, hw, rfl⟩
    exact ⟨_, ⟨u, hu, v, (h v).2 ⟨parts, hparts, hv⟩, rfl⟩, w, hw, rfl⟩

omit hl in
theorem mem_mul_of_parts {A L : Language Char} {P : List (Language Char) → Prop}
    {f : List (Language Char) → Language Char} (h : ∀ v, v ∈ L ↔ ∃ parts, P parts ∧ v ∈ f parts) {text : List Char} :
    text ∈ A * L ↔ ∃ parts, P parts ∧ text ∈ A * f parts := by
  simpa only [mul_one] using mem_mul_mul_of_parts (A := A) (C := 1) h

/-- Members after another one describe parts that are picked from them, each after a separator. -/
theorem mem_language_laterMembers {members : List Member} {extra : Option (List Source)} {text : List Char} :
    text ∈ Source.sequenceLanguage K (laterMembers (l.itemSeparator depth) extra members) ↔
      ∃ parts, Picked (extra.map (Source.sequenceLanguage K)) (members.map (·.part K)) parts ∧
        text ∈ (parts.map (laid B (l.itemSeparator depth) * ·)).prod := by
  induction members generalizing text with
  | nil =>
    simp only [List.map_nil, picked_nil]
    cases extra with
    | none => simp [laterMembers]
    | some e =>
      rw [laterMembers, Source.sequenceLanguage_cons, Source.sequenceLanguage_nil, mul_one, language_extraMembers hl,
        Language.kstar_eq_copies, Language.mem_copies]
      simp
  | cons m rest ih =>
    have taken : text ∈ Source.sequenceLanguage K (l.itemSeparator depth ++ m.sources) *
        Source.sequenceLanguage K (laterMembers (l.itemSeparator depth) extra rest) ↔
          ∃ parts, Picked (extra.map (Source.sequenceLanguage K)) (rest.map (·.part K)) parts ∧
            text ∈ (((m.part K).1 :: parts).map (laid B (l.itemSeparator depth) * ·)).prod := by
      simp only [Source.sequenceLanguage_append, hl.itemSeparator, List.map_cons, List.prod_cons]
      exact mem_mul_of_parts fun _ => ih
    rw [laterMembers, Source.sequenceLanguage_append, List.map_cons, exists_picked_cons, ← taken, ← ih]
    split
    · rename_i hm
      simp [Member.part, hm]
    · rename_i hm
      have maybe : Source.sequenceLanguage K
          [.quantified (.group [.sequence (l.itemSeparator depth ++ m.sources)]) .question] =
            1 + Source.sequenceLanguage K (l.itemSeparator depth ++ m.sources) := by
        simp
      rw [maybe, add_mul, one_mul, Language.mem_add, or_comm]
      simp [Member.part, hm]

/-- The alternatives for the members of an object describe parts that are picked from them, at least one. -/
theorem mem_language_memberLists {members : List Member} {extra : Option (List Source)} {text : List Char} :
    text ∈ Source.choiceLanguage K (memberLists (l.itemSeparator depth) extra members) ↔
      ∃ parts, Picked (extra.map (Source.sequenceLanguage K)) (members.map (·.part K)) parts ∧
        parts ≠ [] ∧ text ∈ Language.separated (laid B (l.itemSeparator depth)) parts := by
  induction members generalizing text with
  | nil =>
    simp only [List.map_nil, picked_nil]
    cases extra with
    | none => simp [memberLists]
    | some e =>
      have alternative : Source.choiceLanguage K (memberLists (l.itemSeparator depth) (some e) []) =
          Source.sequenceLanguage K e * (laid B (l.itemSeparator depth) * Source.sequenceLanguage K e)∗ := by
        simp [memberLists, language_extraMembers hl]
      rw [alternative, Language.mem_separated_replicate]
      constructor
      · rintro ⟨n, htext⟩
        exact ⟨_, ⟨n + 1, fun _ => rfl, rfl⟩, by simp [List.replicate_succ], htext⟩
      · rintro ⟨_, ⟨n, -, rfl⟩, hne, htext⟩
        obtain ⟨n, rfl⟩ := Nat.exists_eq_succ_of_ne_zero (n := n) (by rintro rfl; exact hne rfl)
        exact ⟨n, htext⟩
  | cons m rest ih =>
    have first : text ∈ Source.sequenceLanguage K (m.sources ++ laterMembers (l.itemSeparator depth) extra rest) ↔
        ∃ parts, Picked (extra.map (Source.sequenceLanguage K)) (rest.map (·.part K)) parts ∧
          (m.part K).1 :: parts ≠ [] ∧
            text ∈ Language.separated (laid B (l.itemSeparator depth)) ((m.part K).1 :: parts) := by
      simp only [Source.sequenceLanguage_append, Language.separated_cons, ne_eq, List.cons_ne_nil,
        not_false_eq_true, true_and]
      exact mem_mul_of_parts fun _ => mem_language_laterMembers hl
    rw [memberLists, Source.choiceLanguage_cons, Source.language_sequence, Language.mem_add, first, List.map_cons,
      exists_picked_cons]
    refine or_congr_right ?_
    split
    · rename_i hm
      exact iff_of_false (Language.notMem_zero text) (by simp [Member.part, hm])
    · rename_i hm
      simp [Member.part, hm, ih]

omit hl in
theorem memberLists_eq_nil {separator : List Source} {members : List Member} {extra : Option (List Source)} :
    memberLists separator extra members = [] ↔ members = [] ∧ extra = none := by
  cases members <;> cases extra <;> simp [memberLists]

/-- The source of an object describes the objects with members that are picked from its own. -/
theorem language_objectSource (members : List Member) (extra : Option (List Source)) (mayBeEmpty : Bool) :
    (objectSource l depth members extra mayBeEmpty).language K = objectTexts l B depth (members.map (·.part K))
      (extra.map (Source.sequenceLanguage K)) mayBeEmpty := by
  ext text
  -- an object has no members, or some
  have cases : text ∈ objectTexts l B depth (members.map (·.part K)) (extra.map (Source.sequenceLanguage K))
        mayBeEmpty ↔
      ((∀ m ∈ members, m.required = false) ∧ (mayBeEmpty = true ∨ members = [] ∧ extra = none) ∧
        text ∈ containerTexts l B "\x7b" "\x7d" depth []) ∨
      text ∈ laid B (l.opening "\x7b" depth) *
        Source.choiceLanguage K (memberLists (l.itemSeparator depth) extra members) * laid B (l.closing "\x7d" depth) := by
    have none : Picked (extra.map (Source.sequenceLanguage K)) (members.map (·.part K)) [] ↔
        ∀ m ∈ members, m.required = false := by
      rw [picked_nothing, List.forall_mem_map]
      rfl
    have alternatives (v : List Char) :
        v ∈ Source.choiceLanguage K (memberLists (l.itemSeparator depth) extra members) ↔ _ :=
      (mem_language_memberLists hl).trans (exists_congr fun parts => and_assoc.symm)
    rw [mem_mul_mul_of_parts alternatives]
    constructor
    · rintro ⟨parts, hparts, hempty, htext⟩
      by_cases hne : parts = []
      · subst hne
        exact Or.inl ⟨none.1 hparts, by simpa using hempty rfl, htext⟩
      · exact Or.inr ⟨parts, ⟨hparts, hne⟩, containerTexts_of_ne_nil hne ▸ htext⟩
    · rintro (⟨hall, hempty, htext⟩ | ⟨parts, ⟨hparts, hne⟩, htext⟩)
      · exact ⟨[], none.2 hall, fun _ => by simpa using hempty, htext⟩
      · exact ⟨parts, hparts, fun h => absurd h hne, (containerTexts_of_ne_nil hne).symm ▸ htext⟩
  rw [cases, objectSource]
  split
  · rename_i hnil
    obtain ⟨rfl, rfl⟩ := memberLists_eq_nil.1 hnil
    rw [hnil, Source.language_sequence, hl.emptyContainer]
    simp [containerTexts]
  · rename_i hne
    have some : ¬ (members = [] ∧ extra = none) := fun h => hne (memberLists_eq_nil.2 h)
    rw [language_container hl, Language.mem_add, or_comm, Source.sequenceLanguage_cons, Source.sequenceLanguage_nil,
      mul_one, Source.language_ofAlternatives]
    refine or_congr_left ?_
    simp only [some, or_false, Bool.and_eq_true, List.all_eq_true, Bool.not_eq_true']
    split
    · rename_i h
      exact ⟨fun htext => ⟨h.2, h.1, htext⟩, fun h => h.2.2⟩
    · rename_i h
      exact iff_of_false (Language.notMem_zero text) fun h' => h ⟨h'.2.1, h'.1⟩

end

end ConstrainedDecoding.Schema
