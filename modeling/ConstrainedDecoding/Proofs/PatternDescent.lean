import ConstrainedDecoding.Grammar.FrontEnds
import ConstrainedDecoding.Proofs.PatternReading
import ConstrainedDecoding.Proofs.Productions

/-!
# Reading patterns by descent

A pattern is read exactly where characters describe one. What is read is well-formed, and matches the
texts that the characters describe; so the grammar of a pattern describes their UTF-8 forms.
-/
namespace ConstrainedDecoding.Regex

/-! ## Steps of the reader -/

section

variable {size : Nat} {c : Char} {cs rest : List Char} {p : Pattern} {ps : List Pattern}

theorem alternation_leaves : Leaves (alternation size cs) p rest ↔
    ∃ ps, Leaves (alternatives size cs) ps rest ∧ .alternation ps = p := by
  rw [alternation]
  exact leaves_map _ fun _ => ⟨rfl, rfl⟩

/-- After the head of a group come alternatives and a closing parenthesis. -/
theorem atom_group : Leaves (atom size '(' cs) p rest ↔ ∃ rest₁ body,
    Leaves (groupHead cs) () rest₁ ∧ Leaves (alternation size rest₁) body (')' :: rest) ∧ p = .group body := by
  rw [atom.eq_def]
  simp only [if_true]
  cases hhead : groupHead cs with
  | error fault => simp
  | ok head =>
    obtain ⟨⟨⟩, rest₁, hle⟩ := head
    simp only [leaves_ok, true_and, exists_and_left, exists_eq_left']
    cases hbody : alternation size rest₁ with
    | error fault => simp
    | ok body =>
      obtain ⟨body, rest₂, hle'⟩ := body
      simp only [leaves_ok]
      split
      · rename_i tail
        simp only [leaves_ok, List.cons.injEq, true_and]
        constructor
        · rintro ⟨rfl, rfl⟩
          exact ⟨body, ⟨rfl, rfl⟩, rfl⟩
        · rintro ⟨_, ⟨rfl, rfl⟩, rfl⟩
          exact ⟨rfl, rfl⟩
      · rename_i hnone
        simp only [not_leaves_error, false_iff]
        rintro ⟨_, ⟨-, rfl⟩, -⟩
        exact hnone rest rfl

theorem atom_noneOf : Leaves (atom size '[' ('^' :: cs)) p rest ↔
    ∃ ranges, Leaves (members size true cs) ranges rest ∧ .set ⟨true, ranges⟩ = p := by
  rw [atom.eq_def]
  simp only [show ('[' : Char) ≠ '(' by decide, if_false, if_true]
  exact leaves_map _ fun _ => ⟨rfl, rfl⟩

theorem atom_oneOf (hcs : cs.head? ≠ some '^') : Leaves (atom size '[' cs) p rest ↔
    ∃ ranges, Leaves (members size true cs) ranges rest ∧ .set ⟨false, ranges⟩ = p := by
  rw [atom.eq_def]
  simp only [show ('[' : Char) ≠ '(' by decide, if_false, if_true]
  split
  · exact absurd rfl hcs
  · exact leaves_map _ fun _ => ⟨rfl, rfl⟩

theorem atom_dot : Leaves (atom size '.' cs) p rest ↔ p = .set ⟨true, lineBreakRanges⟩ ∧ cs = rest := by
  rw [atom.eq_def]
  simp only [show ('.' : Char) ≠ '(' ∧ ('.' : Char) ≠ '[' by decide, if_false, if_true, leaves_ok, Read.keep]
  rw [eq_comm]

theorem atom_escape : Leaves (atom size '\\' cs) p rest ↔ Leaves (escape cs) p rest := by
  rw [atom.eq_def]
  simp only [show ('\\' : Char) ≠ '(' ∧ ('\\' : Char) ≠ '[' ∧ ('\\' : Char) ≠ '.' by decide, if_false, if_true]

theorem atom_char (hc : c ∉ specials) : Leaves (atom size c cs) p rest ↔ p = .char c ∧ cs = rest := by
  simp only [specials, List.mem_cons, List.not_mem_nil, or_false, not_or] at hc
  rw [atom.eq_def]
  simp [hc, Read.keep, eq_comm]

theorem not_atom (hc : c ∈ ['*', '+', '?', '^', '$']) : ¬ Leaves (atom size c cs) p rest := by
  rw [atom.eq_def]
  fin_cases hc <;> simp

theorem sequence_end (h : endsSequence cs = true) : Leaves (sequence size cs) ps rest ↔ [] = ps ∧ cs = rest := by
  rw [sequence.eq_def]
  cases cs with
  | nil => simp [Read.keep]
  | cons c cs => simp [h, Read.keep]

theorem sequence_dollar : Leaves (sequence size ['$']) ps rest ↔ [] = ps ∧ [] = rest := by
  rw [sequence.eq_def]
  simp [endsSequence]

theorem sequence_cons (hc : endsSequence (c :: cs) = false) (hdollar : ¬ (c = '$' ∧ cs = [])) :
    Leaves (sequence size (c :: cs)) ps rest ↔ ∃ a rest₁ q rest₂ more, Leaves (atom size c cs) a rest₁ ∧
      Leaves (quantify size a rest₁) q rest₂ ∧ Leaves (sequence size rest₂) more rest ∧ q :: more = ps := by
  rw [sequence.eq_def]
  simp only [hc, hdollar, if_false, Bool.false_eq_true]
  cases ha : atom size c cs with
  | error fault => simp
  | ok a =>
    obtain ⟨a, rest₁, hle⟩ := a
    dsimp only
    cases hq : quantify size a rest₁ with
    | error fault =>
      simp only [not_leaves_error, false_iff]
      rintro ⟨_, _, _, _, _, h, h', -⟩
      obtain ⟨rfl, rfl⟩ := leaves_ok.1 h
      simp [hq] at h'
    | ok q =>
      obtain ⟨q, rest₂, hle'⟩ := q
      rw [leaves_widen]
      constructor
      · rintro ⟨more, hmore, rfl⟩
        exact ⟨a, rest₁, q, rest₂, more, by simp, ⟨_, hq, rfl, rfl⟩, hmore, rfl⟩
      · rintro ⟨_, _, _, _, more, h, h', hmore, rfl⟩
        obtain ⟨rfl, rfl⟩ := leaves_ok.1 h
        obtain ⟨rfl, rfl⟩ := h'.unique ⟨_, hq, rfl, rfl⟩
        exact ⟨more, hmore, rfl⟩

/-- After a sequence there are more alternatives if a bar follows. -/
theorem alternatives_leaves : Leaves (alternatives size cs) ps rest ↔ ∃ items rest₁,
    Leaves (sequence size cs) items rest₁ ∧
      ((∃ rest₂ more, rest₁ = '|' :: rest₂ ∧ Leaves (alternatives size rest₂) more rest ∧
        .sequence items :: more = ps) ∨ (rest₁.head? ≠ some '|' ∧ rest₁ = rest ∧ [.sequence items] = ps)) := by
  rw [alternatives.eq_def]
  cases hs : sequence size cs with
  | error fault => simp
  | ok s =>
    obtain ⟨items, rest₁, hle⟩ := s
    dsimp only
    split
    · rename_i rest₂
      rw [leaves_widen]
      constructor
      · rintro ⟨more, hmore, rfl⟩
        exact ⟨items, _, by simp, Or.inl ⟨rest₂, more, rfl, hmore, rfl⟩⟩
      · rintro ⟨_, _, h, h'⟩
        obtain ⟨rfl, rfl⟩ := leaves_ok.1 h
        rcases h' with ⟨_, more, ⟨⟩, hmore, rfl⟩ | ⟨hne, -⟩
        · exact ⟨more, hmore, rfl⟩
        · exact absurd rfl hne
    · rename_i hne
      have hhead : rest₁.head? ≠ some '|' := fun h => by
        obtain ⟨tail, rfl⟩ := List.head?_eq_some_iff.1 h
        exact hne tail rfl
      rw [leaves_ok]
      constructor
      · rintro ⟨rfl, rfl⟩
        exact ⟨items, _, by simp, Or.inr ⟨hhead, rfl, rfl⟩⟩
      · rintro ⟨_, _, h, h'⟩
        obtain ⟨rfl, rfl⟩ := leaves_ok.1 h
        rcases h' with ⟨_, _, rfl, -⟩ | ⟨-, rfl, rfl⟩
        · exact absurd rfl hhead
        · exact ⟨rfl, rfl⟩

end

/-! ## What is read is described -/

/-- A sequence is at its end before what is left, after the dollar sign at the end of a pattern if
there is one. -/
def Finishes (finish rest : List Char) : Prop :=
  endsSequence rest = true ∧ (finish = [] ∨ finish = ['$'] ∧ rest = [])

section

variable {size : Nat} {c : Char} {cs rest : List Char} {p : Pattern}

/-- Characters describe the alternation that is read from them. -/
def Described (cs : List Char) (p : Pattern) (rest : List Char) : Prop :=
  ∃ ds finish, cs = ds ++ (finish ++ rest) ∧ Finishes finish rest ∧ rest.head? ≠ some '|' ∧
    Describes .alternation ds p.language ∧ p.WellFormed .choice

theorem ordered_shorthands {e : Char} {set : CharClass} (h : (e, set) ∈ shorthands) :
    ∀ r ∈ set.ranges, r.1 ≤ r.2 := by
  simp only [shorthands, List.mem_cons, List.not_mem_nil, or_false, Prod.mk.injEq] at h
  rcases h with ⟨-, rfl⟩ | ⟨-, rfl⟩ | ⟨-, rfl⟩ | ⟨-, rfl⟩ | ⟨-, rfl⟩ | ⟨-, rfl⟩
  all_goals simp [digitRanges, wordRanges, spaceRanges]

theorem atom_sound (hc : endsSequence (c :: cs) = false)
    (ih : ∀ {ds : List Char} {p : Pattern} {rest : List Char}, ds.length ≤ cs.length →
      Leaves (alternation size ds) p rest → Described ds p rest)
    (h : Leaves (atom size c cs) p rest) :
    ∃ ds, c :: cs = ds ++ rest ∧ Describes .atom ds p.language ∧ p.WellFormed .element := by
  by_cases hspecial : c ∈ specials
  · simp only [specials, List.mem_cons, List.not_mem_nil, or_false] at hspecial
    rcases hspecial with rfl | rfl | rfl | rfl | rfl | rfl | hnone
    · obtain ⟨rest₁, body, hopens, hbody, rfl⟩ := atom_group.1 h
      obtain ⟨head, rfl, hhead, -⟩ := groupHead_leaves.1 hopens
      obtain ⟨ds, finish, rfl, ⟨-, hfinish⟩, -, hds, hwell⟩ := ih (by simp) hbody
      obtain rfl : finish = [] := hfinish.resolve_right fun h => nomatch h.2
      refine ⟨'(' :: (head ++ (ds ++ [')'])), by simp, ?_, .group hwell⟩
      rw [Pattern.language]
      exact .group hhead hds
    · cases hc
    · by_cases hcaret : ∃ tail, cs = '^' :: tail
      · obtain ⟨cs, rfl⟩ := hcaret
        obtain ⟨ranges, hranges, rfl⟩ := atom_noneOf.1 h
        obtain ⟨ds, rfl, hds, hordered⟩ := members_sound hranges
        refine ⟨'[' :: '^' :: ds, rfl, ?_, .set hordered⟩
        rw [Pattern.language, chars_of_negated]
        exact .noneOf hds
      · have hhead : cs.head? ≠ some '^' := fun h => hcaret (List.head?_eq_some_iff.1 h)
        obtain ⟨ranges, hranges, rfl⟩ := (atom_oneOf hhead).1 h
        obtain ⟨ds, rfl, hds, hordered⟩ := members_sound hranges
        refine ⟨'[' :: ds, rfl, ?_, .set hordered⟩
        rw [Pattern.language, chars_of_ranges]
        refine .oneOf (fun h => hhead ?_) hds
        rw [List.head?_append, h]
        rfl
    · cases hc
    · obtain ⟨rfl, rfl⟩ := atom_dot.1 h
      refine ⟨['.'], rfl, ?_, .set ?_⟩
      · rw [Pattern.language]
        exact .dot
      · simp [lineBreakRanges]
    · rcases escape_leaves.1 (atom_escape.1 h) with ⟨e, set, hset, rfl, rfl⟩ | ⟨c, ⟨ds, rfl, hds⟩, rfl⟩
      · refine ⟨['\\', e], rfl, ?_, .set (ordered_shorthands hset)⟩
        rw [Pattern.language]
        exact .shorthand hset
      · refine ⟨'\\' :: ds, rfl, ?_, .char⟩
        rw [Pattern.language]
        exact .escaped hds
    · exact absurd h (not_atom (by simpa using hnone))
  · obtain ⟨rfl, rfl⟩ := (atom_char hspecial).1 h
    refine ⟨[c], rfl, ?_, .char⟩
    rw [Pattern.language]
    exact .char hspecial

theorem Describes.exists_cons {K : Language Char} (h : Describes .atom cs K) : ∃ c ds, cs = c :: ds := by
  cases h <;> exact ⟨_, _, rfl⟩

theorem StartsCount.append (h : StartsCount cs) (rest : List Char) : StartsCount (cs ++ rest) := by
  obtain ⟨d, ds, rfl, hd⟩ := h
  exact ⟨d, ds ++ rest, rfl, hd⟩

theorem sequence_sound : ∀ {cs : List Char} {ps : List Pattern},
    (∀ {ds : List Char} {p : Pattern} {rest : List Char}, ds.length < cs.length →
      Leaves (alternation size ds) p rest → Described ds p rest) →
    Leaves (sequence size cs) ps rest →
      ∃ ds finish, cs = ds ++ (finish ++ rest) ∧ Finishes finish rest ∧
        Describes .sequence ds (Pattern.sequenceLanguage ps) ∧ ∀ p ∈ ps, p.WellFormed .item := by
  suffices ∀ (n : Nat) {cs : List Char} {ps : List Pattern}, cs.length = n →
      (∀ {ds : List Char} {p : Pattern} {rest : List Char}, ds.length < cs.length →
        Leaves (alternation size ds) p rest → Described ds p rest) →
      Leaves (sequence size cs) ps rest →
        ∃ ds finish, cs = ds ++ (finish ++ rest) ∧ Finishes finish rest ∧
          Describes .sequence ds (Pattern.sequenceLanguage ps) ∧ ∀ p ∈ ps, p.WellFormed .item from
    fun {_ _} => this _ rfl
  intro n
  induction n using Nat.strong_induction_on with
  | _ n ih =>
    rintro cs ps rfl halternation h
    by_cases hend : endsSequence cs = true
    · obtain ⟨rfl, rfl⟩ := (sequence_end hend).1 h
      refine ⟨[], [], rfl, ⟨hend, Or.inl rfl⟩, ?_, by simp⟩
      rw [Pattern.sequenceLanguage]
      exact .nil
    match cs with
    | [] => exact absurd rfl hend
    | c :: cs =>
      by_cases hdollar : c = '$' ∧ cs = []
      · obtain ⟨rfl, rfl⟩ := hdollar
        obtain ⟨rfl, rfl⟩ := sequence_dollar.1 h
        refine ⟨[], ['$'], rfl, ⟨rfl, Or.inr ⟨rfl, rfl⟩⟩, ?_, by simp⟩
        rw [Pattern.sequenceLanguage]
        exact .nil
      have hc : endsSequence (c :: cs) = false := by simpa using hend
      obtain ⟨a, rest₁, q, rest₂, more, ha, hq, hmore, rfl⟩ := (sequence_cons hc hdollar).1 h
      obtain ⟨ds, hds, hdescribes, hwell⟩ := atom_sound hc
        (fun hlen => halternation (Nat.lt_succ_of_le hlen)) ha
      have hshorter : rest₁.length < (c :: cs).length := by
        obtain ⟨d, es, rfl⟩ := hdescribes.exists_cons
        rw [hds, List.length_append, List.length_cons]
        omega
      rcases quantify_sound hq with ⟨rfl, rfl, hstarts⟩ | ⟨q, qs, mark, hmark, rfl, htimes, hfits, rfl⟩
      · obtain ⟨es, finish, rfl, hfinish, hes, hall⟩ := ih _ hshorter rfl
          (fun hlen => halternation (hlen.trans hshorter)) hmore
        refine ⟨ds ++ es, finish, by rw [hds, List.append_assoc], hfinish, ?_,
          List.forall_mem_cons.2 ⟨.plain hwell, hall⟩⟩
        rw [Pattern.sequenceLanguage]
        exact .item hdescribes (fun h => hstarts (h.append _)) hes
      · have hshorter' : rest₂.length < (c :: cs).length := by
          simp only [List.length_append] at hshorter
          omega
        obtain ⟨es, finish, rfl, hfinish, hes, hall⟩ := ih _ hshorter' rfl
          (fun hlen => halternation (hlen.trans hshorter')) hmore
        refine ⟨ds ++ (qs ++ (mark ++ es)), finish, by simp [hds], hfinish, ?_,
          List.forall_mem_cons.2 ⟨.quantified hwell hfits, hall⟩⟩
        rw [Pattern.sequenceLanguage, Pattern.language]
        exact .repeated hdescribes htimes hmark hes

/-- What is read as an alternation is described by the characters that are read. -/
theorem alternation_sound : ∀ {cs : List Char} {p : Pattern} {rest : List Char},
    Leaves (alternation size cs) p rest → Described cs p rest := by
  suffices ∀ (n : Nat) {cs : List Char} {p : Pattern} {rest : List Char}, cs.length = n →
      Leaves (alternation size cs) p rest → Described cs p rest from fun {_ _ _} h => this _ rfl h
  intro n
  induction n using Nat.strong_induction_on with
  | _ n ih =>
    rintro cs p rest rfl h
    obtain ⟨ps, hps, rfl⟩ := alternation_leaves.1 h
    obtain ⟨items, rest₁, hitems, hrest⟩ := alternatives_leaves.1 hps
    obtain ⟨ds, finish, rfl, hfinish, hds, hwell⟩ := sequence_sound (fun hlen h => ih _ hlen rfl h) hitems
    rcases hrest with ⟨rest₂, more, rfl, hmore, rfl⟩ | ⟨hbar, rfl, rfl⟩
    · obtain rfl : finish = [] := hfinish.2.resolve_right fun h => nomatch h.2
      obtain ⟨es, finish, rfl, hfinish, hbar, hes, hwell'⟩ :=
        ih _ (by simp; omega) rfl (alternation_leaves.2 ⟨more, hmore, rfl⟩)
      refine ⟨ds ++ '|' :: es, finish, by simp, hfinish, hbar, ?_, ?_⟩
      · rw [Pattern.language] at hes ⊢
        rw [Pattern.choiceLanguage, Pattern.language]
        exact .bar hds hes
      · cases hwell' with
        | alternation hne hall =>
          exact .alternation nofun (List.forall_mem_cons.2 ⟨.sequence hwell, hall⟩)
    · refine ⟨ds, finish, rfl, hfinish, hbar, ?_, .alternation (by simp) (by simpa using .sequence hwell)⟩
      rw [Pattern.language, Pattern.choiceLanguage, Pattern.choiceLanguage, add_zero, Pattern.language]
      exact .only hds

/-! ## What is described is read -/

/-- Described characters do not start with a mark that needs something before it. -/
theorem Describes.head {part : Part} {K : Language Char} (h : Describes part cs K) :
    ∀ c ∈ cs.head?, c ∉ ['*', '+', '?', '^', '$', ')'] ∧ (part ≠ .alternation → c ≠ '|') := by
  have first {cs ds : List Char} {P : Char → Prop} (h : ∀ c ∈ cs.head?, P c) (h' : ∀ c ∈ ds.head?, P c) :
      ∀ c ∈ (cs ++ ds).head?, P c := by
    cases cs with
    | nil => exact h'
    | cons => exact h
  induction h with
  | char hc =>
    rintro _ ⟨⟩
    simp only [specials, List.mem_cons, List.not_mem_nil, or_false, not_or] at hc
    simp [hc]
  | dot | shorthand | escaped | oneOf | noneOf | group =>
    rintro _ ⟨⟩
    exact ⟨by decide, fun _ => by decide⟩
  | nil => simp
  | item _ _ _ ih ih' =>
    refine first (fun c hc => ?_) ih'
    exact ⟨(ih c hc).1, fun _ => (ih c hc).2 nofun⟩
  | repeated hatom _ _ _ ih ih' =>
    obtain ⟨c, ds, rfl⟩ := hatom.exists_cons
    rintro _ ⟨⟩
    exact ⟨(ih c rfl).1, fun _ => (ih c rfl).2 nofun⟩
  | only _ ih => exact fun c hc => ⟨(ih c hc).1, fun h => absurd rfl h⟩
  | bar _ _ ih _ =>
    refine first (fun c hc => ⟨(ih c hc).1, fun h => absurd rfl h⟩) ?_
    rintro _ ⟨⟩
    exact ⟨by decide, fun h => absurd rfl h⟩

/-- Neither a quantifier nor a question mark follows where a sequence goes on or finishes. -/
theorem head_of_finishes {ds finish : List Char} {K : Language Char} (h : Describes .sequence ds K)
    (hfinish : Finishes finish rest) : ∀ c ∈ (ds ++ (finish ++ rest)).head?, c ∉ ['*', '+', '?'] := by
  cases ds with
  | cons c ds =>
    rintro _ ⟨⟩ hc
    exact (h.head c rfl).1 (by fin_cases hc <;> simp)
  | nil =>
    obtain ⟨hend, rfl | ⟨rfl, rfl⟩⟩ := hfinish
    · cases rest with
      | nil => simp
      | cons c rest =>
        rintro _ ⟨⟩ hc
        fin_cases hc <;> simp [endsSequence] at hend
    · rintro _ ⟨⟩
      decide

theorem not_startsCount_of_finishes {ds finish : List Char} (hstarts : ¬ StartsCount ds)
    (hfinish : Finishes finish rest) : ¬ StartsCount (ds ++ (finish ++ rest)) := by
  -- what follows the sequence starts with neither a brace nor a digit
  have hhead : ∀ c ∈ (finish ++ rest).head?, c = '|' ∨ c = ')' ∨ c = '$' := by
    obtain ⟨hend, rfl | ⟨rfl, rfl⟩⟩ := hfinish
    · cases rest with
      | nil => simp
      | cons c rest =>
        rintro _ ⟨⟩
        have : c = '|' ∨ c = ')' := by simpa [endsSequence] using hend
        exact this.imp_right Or.inl
    · rintro _ ⟨⟩
      exact Or.inr (Or.inr rfl)
  rintro ⟨d, tail, heq, hd⟩
  rcases ds with _ | ⟨c, _ | ⟨e, ds⟩⟩
  · simpa using hhead '\x7b' (by rw [← List.nil_append (finish ++ rest), heq]; rfl)
  · have hd' : finish ++ rest = d :: tail := (List.cons.inj heq).2
    rcases hhead d (by rw [hd']; rfl) with rfl | rfl | rfl <;> cases hd
  · obtain ⟨rfl, h⟩ := List.cons.inj heq
    obtain ⟨rfl, -⟩ := List.cons.inj h
    exact hstarts ⟨_, ds, rfl, hd⟩

/-- Characters are read as a pattern for the texts of a language, whatever comes after them. -/
def IsRead (size : Nat) : Part → List Char → Language Char → Prop
  | .atom, ds, K => ∀ c tail rest, c :: tail = ds ++ rest →
    ∃ p, Leaves (atom size c tail) p rest ∧ p.language = K
  | .sequence, ds, K => ∀ finish rest, Finishes finish rest →
    ∃ ps, Leaves (sequence size (ds ++ (finish ++ rest))) ps rest ∧ Pattern.sequenceLanguage ps = K
  | .alternation, ds, K => ∀ finish rest, Finishes finish rest → rest.head? ≠ some '|' →
    ∃ p, Leaves (alternation size (ds ++ (finish ++ rest))) p rest ∧ p.language = K

theorem sequence_finish {finish : List Char} (hfinish : Finishes finish rest) :
    Leaves (sequence size (finish ++ rest)) [] rest := by
  obtain ⟨hend, rfl | ⟨rfl, rfl⟩⟩ := hfinish
  · exact (sequence_end hend).2 ⟨rfl, rfl⟩
  · exact sequence_dollar.2 ⟨rfl, rfl⟩

/-- A sequence is read atom by atom. -/
theorem sequence_atom {q : Pattern} {ds rest₁ rest₂ : List Char} {K : Language Char} {ps : List Pattern}
    (hatom : Describes .atom (c :: ds) K) (ha : Leaves (atom size c cs) p rest₁)
    (hq : Leaves (quantify size p rest₁) q rest₂) (hmore : Leaves (sequence size rest₂) ps rest) :
    Leaves (sequence size (c :: cs)) (q :: ps) rest := by
  have hhead := hatom.head c rfl
  have hc : endsSequence (c :: cs) = false := by
    have hparenthesis : c ≠ ')' := fun h => hhead.1 (by simp [h])
    simpa [endsSequence] using ⟨hhead.2 (by simp), hparenthesis⟩
  have hdollar : ¬ (c = '$' ∧ cs = []) := fun h => hhead.1 (by simp [h.1])
  exact (sequence_cons hc hdollar).2 ⟨p, rest₁, q, rest₂, ps, ha, hq, hmore, rfl⟩

variable (size) in
/-- What describes a language is read as a pattern for it. -/
theorem Describes.isRead {part : Part} {ds : List Char} {K : Language Char} (h : Describes part ds K) :
    IsRead size part ds K := by
  induction h with
  | char hc =>
    rintro _ _ rest ⟨⟩
    exact ⟨_, (atom_char hc).2 ⟨rfl, rfl⟩, by rw [Pattern.language]⟩
  | dot =>
    rintro _ _ rest ⟨⟩
    exact ⟨_, atom_dot.2 ⟨rfl, rfl⟩, by rw [Pattern.language]⟩
  | shorthand hset =>
    rintro _ _ rest ⟨⟩
    exact ⟨_, atom_escape.2 (escape_leaves.2 (Or.inl ⟨_, _, hset, rfl, rfl⟩)), by rw [Pattern.language]⟩
  | escaped hcs =>
    rintro _ _ rest ⟨⟩
    exact ⟨_, atom_escape.2 (escape_leaves.2 (Or.inr ⟨_, ⟨_, rfl, hcs⟩, rfl⟩)), by rw [Pattern.language]⟩
  | @oneOf cs S hhead hcs =>
    rintro _ _ rest ⟨⟩
    have hcaret : (cs ++ rest).head? ≠ some '^' := by
      cases cs with
      | nil => cases hcs.getLast?_eq
      | cons => exact hhead
    obtain ⟨ranges, hranges, rfl⟩ := members_complete size hcs rest
    exact ⟨_, (atom_oneOf hcaret).2 ⟨ranges, hranges, rfl⟩, by rw [Pattern.language, chars_of_ranges]⟩
  | noneOf hcs =>
    rintro _ _ rest ⟨⟩
    obtain ⟨ranges, hranges, rfl⟩ := members_complete size hcs rest
    exact ⟨_, atom_noneOf.2 ⟨ranges, hranges, rfl⟩, by rw [Pattern.language, chars_of_negated]⟩
  | @group head cs K hhead hcs ih =>
    intro c tail rest heq
    obtain ⟨rfl, rfl⟩ : c = '(' ∧ tail = head ++ (cs ++ ([] ++ ')' :: rest)) := by simpa using heq
    obtain ⟨body, hbody, rfl⟩ := ih [] (')' :: rest) ⟨rfl, Or.inl rfl⟩ nofun
    refine ⟨.group body, atom_group.2 ⟨_, body, groupHead_leaves.2 ⟨head, rfl, hhead, fun _ => ?_⟩, hbody, rfl⟩, by rw [Pattern.language]⟩
    cases cs with
    | nil => simp
    | cons c cs =>
      have := (hcs.head c rfl).1
      rintro ⟨⟩
      exact this (by simp)
  | nil =>
    intro finish rest hfinish
    exact ⟨[], sequence_finish hfinish, by rw [Pattern.sequenceLanguage]⟩
  | @item cs K ds K' hatom hstarts hds ih ih' =>
    intro finish rest hfinish
    obtain ⟨ps, hps, rfl⟩ := ih' finish rest hfinish
    obtain ⟨c, cs, rfl⟩ := hatom.exists_cons
    obtain ⟨p, hp, rfl⟩ := ih c (cs ++ (ds ++ (finish ++ rest))) (ds ++ (finish ++ rest)) rfl
    refine ⟨p :: ps, ?_, by rw [Pattern.sequenceLanguage]⟩
    rw [show c :: cs ++ ds ++ (finish ++ rest) = c :: (cs ++ (ds ++ (finish ++ rest))) by simp]
    exact sequence_atom hatom hp
      (quantify_none (not_startsCount_of_finishes hstarts hfinish) (head_of_finishes hds hfinish)) hps
  | @repeated cs K qs least most mark ds K' hatom htimes hmark hds ih ih' =>
    intro finish rest hfinish
    obtain ⟨ps, hps, rfl⟩ := ih' finish rest hfinish
    obtain ⟨c, cs, rfl⟩ := hatom.exists_cons
    obtain ⟨p, hp, rfl⟩ := ih c (cs ++ (qs ++ (mark ++ (ds ++ (finish ++ rest))))) _ rfl
    obtain ⟨q, hq, rfl, rfl⟩ :=
      quantify_complete size p htimes hmark (head_of_finishes hds hfinish)
    refine ⟨.quantified p q :: ps, ?_, by rw [Pattern.sequenceLanguage, Pattern.language]⟩
    rw [show c :: cs ++ (qs ++ (mark ++ ds)) ++ (finish ++ rest) =
      c :: (cs ++ (qs ++ (mark ++ (ds ++ (finish ++ rest))))) by simp]
    exact sequence_atom hatom hp hq hps
  | only hcs ih =>
    intro finish rest hfinish hbar
    obtain ⟨ps, hps, rfl⟩ := ih finish rest hfinish
    refine ⟨_, alternation_leaves.2 ⟨_, alternatives_leaves.2 ⟨ps, _, hps, Or.inr ⟨hbar, rfl, rfl⟩⟩, rfl⟩, ?_⟩
    rw [Pattern.language, Pattern.choiceLanguage, Pattern.choiceLanguage, add_zero, Pattern.language]
  | @bar cs K ds K' hcs hds ih ih' =>
    intro finish rest hfinish hbar
    obtain ⟨p, hp, rfl⟩ := ih' finish rest hfinish hbar
    obtain ⟨items, hitems, rfl⟩ := ih [] ('|' :: (ds ++ (finish ++ rest))) ⟨rfl, Or.inl rfl⟩
    obtain ⟨more, hmore, rfl⟩ := alternation_leaves.1 hp
    refine ⟨.alternation (.sequence items :: more), alternation_leaves.2 ⟨_, ?_, rfl⟩, ?_⟩
    · rw [show cs ++ '|' :: ds ++ (finish ++ rest) = cs ++ ([] ++ '|' :: (ds ++ (finish ++ rest))) by simp]
      exact alternatives_leaves.2 ⟨items, _, hitems, Or.inl ⟨_, more, rfl, hmore, rfl⟩⟩
    · rw [Pattern.language, Pattern.choiceLanguage, Pattern.language, Pattern.language]

end

/-! ## Whole patterns -/

namespace Pattern

variable {text : String} {p : Pattern}

/-- The whole of the characters has to be read. -/
private theorem read {body : List Char} {size : Nat} : (do
    let r ← Regex.alternation size body
    if r.rest.isEmpty then return r.value else throw (.unmatchedClose (size - r.rest.length)) :
      Except Fault Pattern) = .ok p ↔ Leaves (Regex.alternation size body) p [] := by
  cases Regex.alternation size body with
  | error fault => simp [bind, Except.bind]
  | ok r =>
    simp only [bind, Except.bind, leaves_ok]
    cases hrest : r.rest <;> simp [pure, Except.pure, throw, throwThe, MonadExceptOf.throw]

/-- A pattern is read after the caret at its start, if there is one. -/
theorem parse_eq_ok : parse text = .ok p ↔ ∃ start ∈ [[], ['^']], ∃ body, text.toList = start ++ body ∧
    (start = [] → body.head? ≠ some '^') ∧ Leaves (Regex.alternation text.toList.length body) p [] := by
  obtain ⟨body, hbody, hparse⟩ : ∃ body, (text.toList = '^' :: body ∨
      text.toList = body ∧ ∀ tail, body ≠ '^' :: tail) ∧ parse text = (do
        let r ← Regex.alternation text.toList.length body
        if r.rest.isEmpty then return r.value
        else throw (.unmatchedClose (text.toList.length - r.rest.length))) := by
    refine ⟨_, ?_, rfl⟩
    split
    · rename_i heq
      exact Or.inl heq
    · rename_i hne
      exact Or.inr ⟨rfl, hne⟩
  rw [hparse, read]
  constructor
  · intro h
    rcases hbody with hbody | ⟨hbody, hne⟩
    · exact ⟨['^'], by simp, body, hbody, fun h => absurd h (List.cons_ne_nil _ _), h⟩
    · refine ⟨[], by simp, body, hbody, fun _ hhead => ?_, h⟩
      obtain ⟨tail, rfl⟩ := List.head?_eq_some_iff.1 hhead
      exact hne tail rfl
  · rintro ⟨start, hstart, body', htext, hcaret, h⟩
    obtain rfl : body' = body := by
      rcases List.mem_pair.1 hstart with rfl | rfl <;> rcases hbody with hbody | ⟨hbody, hne⟩
      · exact absurd (by rw [← List.nil_append body', ← htext, hbody]; rfl) (hcaret rfl)
      · exact htext.symm.trans hbody
      · exact (List.cons.inj (htext.symm.trans hbody)).2
      · exact absurd (hbody.symm.trans htext) (hne body')
    exact h

/-- A pattern that is read is well-formed, and the characters match what it does. -/
theorem parse_sound (h : parse text = .ok p) : Matches text.toList p.language ∧ p.WellFormed .choice := by
  obtain ⟨start, hstart, body, htext, -, hread⟩ := parse_eq_ok.1 h
  obtain ⟨ds, finish, rfl, ⟨-, hfinish⟩, -, hds, hwell⟩ := alternation_sound hread
  refine ⟨⟨start, hstart, ds, finish, ?_, hds, by simpa using htext⟩, hwell⟩
  rcases hfinish with rfl | ⟨rfl, -⟩ <;> simp

/-- Characters that match a language are read as a pattern for it. -/
theorem parse_complete {K : Language Char} (h : Matches text.toList K) : ∃ p, parse text = .ok p ∧ p.language = K := by
  obtain ⟨start, hstart, body, finish, hfinish, hbody, htext⟩ := h
  have hfinish : Finishes finish [] := ⟨rfl, by simpa using hfinish⟩
  obtain ⟨p, hp, hlanguage⟩ := hbody.isRead text.toList.length finish [] hfinish nofun
  rw [List.append_nil] at hp
  refine ⟨p, parse_eq_ok.2 ⟨start, hstart, body ++ finish, htext, ?_, hp⟩, hlanguage⟩
  rintro -
  cases body with
  | nil => rcases hfinish.2 with rfl | ⟨rfl, -⟩ <;> simp
  | cons c body =>
    rintro ⟨⟩
    exact (hbody.head _ rfl).1 (by simp)

end Pattern

/-- What a pattern matches is determined by its characters. -/
theorem Matches.unique {text : String} {K K' : Language Char} (h : Matches text.toList K)
    (h' : Matches text.toList K') : K = K' := by
  obtain ⟨p, hp, rfl⟩ := Pattern.parse_complete h
  obtain ⟨p', hp', rfl⟩ := Pattern.parse_complete h'
  rw [Except.ok.inj (hp.symm.trans hp')]

/-! ## Grammar texts of patterns -/

/-- The production of a well-formed pattern can be read. -/
theorem wellFormed_production {p : Pattern} (h : p.WellFormed .choice) :
    Ebnf.Production.WellFormed [⟨"root", [p.toSource]⟩] := by
  refine ⟨by simp, ?_, by simp, by simpa using h.readable.1⟩
  simp [Ebnf.IsName, Ebnf.startsName, Ebnf.continuesName]

theorem meaning_root (p : Pattern) :
    Ebnf.Production.meaning [⟨"root", [p.toSource]⟩] "root" = p.language := by
  refine (Ebnf.Production.meaning_of_mem (p := ⟨"root", [p.toSource]⟩) (by simp) (by simp)).trans ?_
  simp [Pattern.language_toSource]

/-- The grammar text of a pattern is accepted, and describes what the pattern matches. -/
theorem exists_parse_ebnfText {pattern text : String} (h : ebnfText pattern = .ok text) :
    ∃ p ts g, Pattern.parse pattern = .ok p ∧ Ebnf.tokens text = .ok ts ∧ Ebnf.Closed ts ∧
      (Ebnf.ruleNames (Ebnf.values ts)).Nodup ∧ Grammar.parse text "root" = .ok g ∧
        g.language = Utf8.encoded p.language := by
  unfold ebnfText at h
  split at h
  · cases h
  · rename_i p hp
    obtain rfl := Except.ok.inj h
    have htext : Ebnf.Production.Written [⟨"root", [p.toSource]⟩]
        (Ebnf.Production.text ⟨"root", [p.toSource]⟩) := ⟨0, by simp⟩
    obtain ⟨ts, g, hts, hclosed, hnodup, hg, hlanguage⟩ := Grammar.exists_parse_productions
      (wellFormed_production (Pattern.parse_sound hp).2) htext (List.mem_singleton_self "root")
    exact ⟨p, ts, g, hp, hts, hclosed, hnodup, hg, hlanguage.trans (by rw [meaning_root])⟩

end ConstrainedDecoding.Regex

namespace ConstrainedDecoding.Grammar

open Regex

theorem ofPattern_eq_ok {pattern : String} {g : Grammar} : ofPattern pattern = .ok g ↔
    ∃ text, Regex.ebnfText pattern = .ok text ∧ parse text "root" = .ok g := by
  rw [ofPattern, Except.bind_eq_ok]
  simp only [ofEbnf, Except.mapError_eq_ok]

/-- A pattern has a grammar exactly if its characters match the texts of a language. -/
theorem exists_ofPattern_iff {pattern : String} :
    (∃ g, ofPattern pattern = .ok g) ↔ ∃ K, Matches pattern.toList K := by
  constructor
  · rintro ⟨g, hg⟩
    obtain ⟨text, htext, -⟩ := ofPattern_eq_ok.1 hg
    obtain ⟨p, -, -, hp, -⟩ := exists_parse_ebnfText htext
    exact ⟨_, (Pattern.parse_sound hp).1⟩
  · rintro ⟨K, hK⟩
    obtain ⟨p, hp, -⟩ := Pattern.parse_complete hK
    have htext : Regex.ebnfText pattern = .ok (Ebnf.Production.text ⟨"root", [p.toSource]⟩) := by
      rw [Regex.ebnfText, hp]
    obtain ⟨-, -, g, -, -, -, -, hg, -⟩ := exists_parse_ebnfText htext
    exact ⟨g, ofPattern_eq_ok.2 ⟨_, htext, hg⟩⟩

/-- The grammar of a pattern describes the UTF-8 forms of the texts that the pattern matches in full. -/
theorem ofPattern_describes_matches {pattern : String} {g : Grammar} (h : ofPattern pattern = .ok g) :
    ∃ K, Matches pattern.toList K ∧ (∀ K', Matches pattern.toList K' → K' = K) ∧
      g.language = Utf8.encoded K := by
  obtain ⟨text, htext, hparse⟩ := ofPattern_eq_ok.1 h
  obtain ⟨p, -, g', hp, -, -, -, hg, hlanguage⟩ := exists_parse_ebnfText htext
  obtain rfl := Except.ok.inj (hparse.symm.trans hg)
  have hmatches := (Pattern.parse_sound hp).1
  exact ⟨p.language, hmatches, fun K' h => h.unique hmatches, hlanguage⟩

open Computability in
theorem ofPattern_describes_lazy_group : ∃ g, ofPattern "^(?:a|b)*?$" = .ok g ∧
    g.language = Utf8.encoded ({['a']} + {['b']})∗ := by
  have hmatches : Matches "^(?:a|b)*?$".toList (({['a']} + {['b']})∗ : Language Char) := by
    have letter (c : Char) (hc : c ∉ specials) : Describes .sequence [c] {[c]} := by
      simpa using (Describes.char hc).item (by rintro ⟨_, _, ⟨⟩, -⟩) .nil
    have body := (Describes.bar (letter 'a' (by decide)) (.only (letter 'b' (by decide)))).group .plain
    have starred := body.repeated .star (by simp : ['?'] ∈ [[], ['?']]) .nil
    rw [Language.copies_star, mul_one] at starred
    exact ⟨['^'], by simp, _, ['$'], by simp, .only starred, rfl⟩
  obtain ⟨g, hg⟩ := exists_ofPattern_iff.2 ⟨_, hmatches⟩
  obtain ⟨K, -, hunique, hlanguage⟩ := ofPattern_describes_matches hg
  exact ⟨g, hg, hunique _ hmatches ▸ hlanguage⟩

end ConstrainedDecoding.Grammar
