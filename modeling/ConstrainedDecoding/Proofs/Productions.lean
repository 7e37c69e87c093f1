import ConstrainedDecoding.Proofs.Meaning
import ConstrainedDecoding.Proofs.Sources

/-!
# What written productions describe

A text of productions with distinct names, whose sources can be read and use no other names, is
accepted, and the rule of each production describes the UTF-8 forms of the texts of its sources. What
a name describes is the least that goes with the productions.
-/
namespace ConstrainedDecoding.Ebnf

namespace Production

/-! ## Meanings -/

/-- The names of productions. -/
abbrev names (ps : List Production) : List String := ps.map (·.name)

/-- What productions say of each name, given what the names describe. -/
def step (ps : List Production) : Meaning →o Meaning where
  toFun K n := {text | ∃ p ∈ ps, p.name = n ∧ text ∈ Source.choiceLanguage K p.alternatives}
  monotone' _ _ h _ _ := fun ⟨p, hp, hn, htext⟩ => ⟨p, hp, hn, Source.choiceLanguage_mono h _ htext⟩

/-- What the names of productions describe. -/
def meaning (ps : List Production) : Meaning := (step ps).lfp

variable {ps : List Production} {K : Meaning}

theorem mem_step {n : String} {text : List Char} : text ∈ step ps K n ↔
    ∃ p ∈ ps, p.name = n ∧ text ∈ Source.choiceLanguage K p.alternatives := Iff.rfl

theorem step_meaning (ps : List Production) : step ps (meaning ps) = meaning ps := (step ps).map_lfp

/-- Nothing less goes with the productions. -/
theorem meaning_le (h : ∀ p ∈ ps, Source.choiceLanguage K p.alternatives ≤ K p.name) : meaning ps ≤ K := by
  refine (step ps).lfp_le fun n text htext => ?_
  obtain ⟨p, hp, rfl, hmem⟩ := mem_step.1 htext
  exact h p hp hmem

theorem eq_of_name_eq (hnodup : (names ps).Nodup) {p q : Production} (hp : p ∈ ps) (hq : q ∈ ps)
    (h : p.name = q.name) : p = q := List.inj_on_of_nodup_map hnodup hp hq h

/-- A name describes what its production does. -/
theorem meaning_of_mem (hnodup : (names ps).Nodup) {p : Production} (hp : p ∈ ps) :
    meaning ps p.name = Source.choiceLanguage (meaning ps) p.alternatives := by
  ext text
  rw [← step_meaning, mem_step, step_meaning]
  constructor
  · rintro ⟨q, hq, hname, htext⟩
    exact eq_of_name_eq hnodup hq hp hname ▸ htext
  · exact fun htext => ⟨p, hp, rfl, htext⟩

/-! ## Declarations -/

/-- A declaration says what a production does. -/
structure Declared (ns : List String) (p : Production) (d : Declaration) : Prop where
  name : d.name = p.name
  means : d.body.Means (NamesAt ns) (Source.choiceLanguage · p.alternatives)

section

variable {ds : List Declaration}

theorem names_eq {ns : List String} (h : List.Forall₂ (Declared ns) ps ds) :
    ds.map (·.name) = names ps := by
  induction h with
  | nil => rfl
  | cons h _ ih => simp [h.name, ih]

theorem exists_declared {n : String} {r : RuleId} (h : List.Forall₂ (Declared (names ps)) ps ds)
    (hr : NamesAt (names ps) n r) :
    ∃ p ∈ ps, p.name = n ∧ ∃ d, ds[r]? = some d ∧ Declared (names ps) p d := by
  obtain ⟨hlt, rfl⟩ := List.getElem?_eq_some_iff.1 hr
  have hlt : r < ps.length := by simpa using hlt
  have hlt' : r < ds.length := h.length_eq ▸ hlt
  exact ⟨ps[r], List.getElem_mem hlt, by simp, ds[r], List.getElem?_eq_getElem hlt', h.get hlt hlt'⟩

/-- What the rules with given names are, if each describes what its name does. -/
def readingOf (ns : List String) (K : Meaning) : Reading :=
  fun r => Utf8.encoded ((ns[r]?.map K).getD 0)

theorem readingOf_eq {ns : List String} {n : String} {r : RuleId} (hr : NamesAt ns n r) (K : Meaning) :
    readingOf ns K r = Utf8.encoded (K n) := by
  rw [readingOf, show ns[r]? = some n from hr, Option.map_some, Option.getD_some]

theorem Declared.language_readingOf {ns : List String} {p : Production} {d : Declaration}
    (h : Declared ns p d) (K : Meaning) :
    d.body.language (readingOf ns K) = Utf8.encoded (Source.choiceLanguage K p.alternatives) :=
  h.means _ K fun _ _ hr => readingOf_eq hr K

theorem reading_le_readingOf (hnodup : (names ps).Nodup) (h : List.Forall₂ (Declared (names ps)) ps ds) :
    reading ds ≤ readingOf (names ps) (meaning ps) := by
  refine OrderHom.lfp_le _ fun r => ?_
  rw [OrderHom.coe_mk]
  cases hd : ds[r]? with
  | none =>
    rw [bodyLanguage, hd]
    exact bot_le
  | some d =>
    have hr : NamesAt (names ps) d.name r := by
      rw [NamesAt, ← names_eq h, List.getElem?_map, hd, Option.map_some]
    obtain ⟨p, hp, hname, e, he, hdeclared⟩ := exists_declared h hr
    obtain rfl := Option.some.inj (hd.symm.trans he)
    rw [bodyLanguage_some hd, hdeclared.language_readingOf, ← meaning_of_mem hnodup hp, readingOf_eq hr,
      hname]

theorem readingOf_le_reading (hnodup : (names ps).Nodup) (h : List.Forall₂ (Declared (names ps)) ps ds) :
    readingOf (names ps) (meaning ps) ≤ reading ds := by
  -- the texts of a name are at most those that the rules of that name describe
  let K : Meaning := fun n => {text | ∀ r, NamesAt (names ps) n r → Utf8.encode text ∈ reading ds r}
  have below : readingOf (names ps) K ≤ reading ds := by
    rintro r w ⟨text, htext, rfl⟩
    cases hr : (names ps)[r]? with
    | none =>
      rw [hr] at htext
      exact absurd htext (Language.notMem_zero text)
    | some n =>
      rw [hr] at htext
      exact htext r hr
  have least : meaning ps ≤ K := by
    refine meaning_le fun p hp text htext r hr => ?_
    obtain ⟨q, hq, hname, d, hd, hdeclared⟩ := exists_declared h hr
    obtain rfl := eq_of_name_eq hnodup hq hp hname
    rw [reading_of_phrase hd]
    refine d.body.language_mono (fun r _ => below r) ?_
    rw [hdeclared.language_readingOf]
    exact Utf8.encode_mem_encoded.2 htext
  refine le_trans (fun r => Utf8.encoded_le_encoded.2 ?_) below
  cases (names ps)[r]? with
  | none => exact le_rfl
  | some n => exact least n

/-- Rules that are declared as productions describe what the productions do. -/
theorem reading_eq (hnodup : (names ps).Nodup) (h : List.Forall₂ (Declared (names ps)) ps ds)
    {n : String} {r : RuleId} (hr : NamesAt (names ps) n r) :
    reading ds r = Utf8.encoded (meaning ps n) := by
  rw [← readingOf_eq hr]
  exact congrFun (le_antisymm (reading_le_readingOf hnodup h) (readingOf_le_reading hnodup h)) r

end

/-! ## Texts -/

/-- The names of productions are distinct, and the sources use no other names, and only quantifiers that
fit. -/
structure Regular (fits : Quantifier → Prop) (ps : List Production) : Prop where
  nodup : (names ps).Nodup
  named : ∀ p ∈ ps, IsName p.name
  nonempty : ∀ p ∈ ps, p.alternatives ≠ []
  sources : ∀ p ∈ ps, ∀ s ∈ p.alternatives, Formed (· ∈ names ps) fits .sequence s

/-- Productions that can be read. -/
abbrev WellFormed : List Production → Prop := Regular Quantifier.Fits

/-- The line of a production, without its end. -/
def line (p : Production) : String :=
  p.name ++ " ::= " ++ " | ".intercalate (Source.texts p.alternatives)

theorem toList_text (p : Production) : p.text.toList = p.line.toList ++ ['\n'] := by
  simp [text, line]

theorem cuts_line (h : WellFormed ps) {p : Production} (hp : p ∈ ps) : Cuts p.line ends fun ts =>
    ∃ d, Declared (names ps) p d ∧ SpellsUntitled (NamesAt (names ps)) ts d := by
  have known : ∀ n, n ∈ names ps → ∃ r, NamesAt (names ps) n r := fun n hn => List.mem_iff_getElem?.1 hn
  obtain ⟨r, hr⟩ := known p.name (List.mem_map_of_mem hp)
  have body := cuts_alternatives (h.nonempty p hp) fun s hs => cuts_source known (h.sources p hp s hs)
  refine (cuts_title (h.named p hp)).append body (fun _ _ => follows_anything _) ?_
  rintro _ us rfl ⟨q, hq, hmeans⟩
  refine ⟨⟨p.name, r, q, none⟩, ⟨rfl, hmeans⟩, us, rfl, ?_⟩
  have := SpellsRule.rule hr hq .nothing
  rwa [List.append_nil] at this

/-- The lines of some of the productions are cut into declarations of theirs. -/
theorem lines_texts (h : WellFormed ps) (qs : List Production) : (∀ q ∈ qs, q ∈ ps) →
    ∀ (p : Position) (before : Option (Located Token)), (∀ b ∈ before, b.position.line < p.line) →
      ∃ ds, List.Forall₂ (Declared (names ps)) qs ds ∧
        Lines (NamesAt (names ps)) p (qs.flatMap (·.text.toList)) before ds := by
  induction qs with
  | nil => exact fun _ p before _ => ⟨[], .nil, lines_nil p before⟩
  | cons q qs ih =>
    intro hqs p before hbefore
    obtain ⟨hq, hqs⟩ := List.forall_mem_cons.1 hqs
    have follows : Follows ends ('\n' :: qs.flatMap (·.text.toList)) := by
      rintro c ⟨⟩
      decide
    have fresh : ∀ b ∈ before, b.position.line ≠ p.line := fun b hb => (hbefore b hb).ne
    obtain ⟨d, ds, hd, hds, hlines⟩ :=
      Lines.exists_cons (cuts_line h hq) follows fresh fun r last hr hlast => by
        obtain ⟨ds, hds, hlines⟩ := ih hqs ⟨r.line + 1, 1⟩ last fun b hb => by
          rw [hlast b hb, hr]
          exact Nat.lt_succ_self _
        exact ⟨ds, hds, lines_newline.2 hlines⟩
    refine ⟨d :: ds, .cons hd hds, ?_⟩
    rwa [List.flatMap_cons, toList_text, List.append_assoc]

/-- A text has the lines of productions, after any number of empty lines. -/
def Written (ps : List Production) (text : String) : Prop :=
  ∃ k, text.toList = List.replicate k '\n' ++ ps.flatMap (·.text.toList)

theorem exists_tokens (h : WellFormed ps) {text : String} (htext : Written ps text) :
    ∃ ts ds, tokens text = .ok ts ∧ Declares (values ts) ds ∧ List.Forall₂ (Declared (names ps)) ps ds := by
  obtain ⟨k, htext⟩ := htext
  obtain ⟨ds, hds, hlines⟩ : ∃ ds, List.Forall₂ (Declared (names ps)) ps ds ∧
      Lines (NamesAt (names ps)) .start text.toList none ds := by
    rw [htext]
    clear htext
    generalize Position.start = p
    induction k generalizing p with
    | zero => exact lines_texts h ps (fun _ hp => hp) p none nofun
    | succ k ih =>
      obtain ⟨ds, hds, hlines⟩ := ih ⟨p.line + 1, 1⟩
      exact ⟨ds, hds, lines_newline.2 hlines⟩
  obtain ⟨ts, us, hts, hus, hspells⟩ := tokens_of_lines hlines
  exact ⟨ts, ds, hts, ⟨us, hus, by rwa [names_eq hds]⟩, hds⟩

end Production

end ConstrainedDecoding.Ebnf

namespace ConstrainedDecoding.Grammar

open Ebnf

/-- A text whose tokens spell declarations describes what the declaration of the root does. -/
theorem exists_parse_language {text root : String} {ts : List (Located Token)} {ds : List Declaration}
    (hts : tokens text = .ok ts) (h : Declares (values ts) ds) (hnodup : (ds.map (·.name)).Nodup)
    (hroot : root ∈ ds.map (·.name)) :
    ∃ g r, parse text root = .ok g ∧ NamesAt (ds.map (·.name)) root r ∧ g.language = Ebnf.reading ds r := by
  obtain ⟨g, hg, hfinish⟩ := exists_parse hts h hnodup hroot
  obtain ⟨us, hus, hspells⟩ := h
  obtain ⟨-, found, stands⟩ :=
    draft_spec (inOrder_of_namesAt (fun d hd => (hspells.spelled d hd).1) hnodup) hfinish
  have fit := fit_of_spells hspells
  have reading := reading_eq_of_declarations (fun d hd => (fit d hd _ List.mem_cons_self).1)
    fun k d hd => by
      obtain ⟨rule, hrule, -, hdrawn, -⟩ := stands k d hd
      exact ⟨_, by rw [body, hrule]; rfl, hdrawn⟩
  obtain ⟨hlt, hname, -⟩ := List.findIdx?_eq_some_iff_getElem.1 (found hroot)
  refine ⟨g, g.root, hg, ?_, reading g.root (by simpa using hlt)⟩
  exact List.getElem?_eq_some_iff.2 ⟨hlt, by simpa using hname⟩

/-- A text of productions that can be read is accepted: no name is declared twice, every name that is
used is declared, and the grammar describes what the production of the root does. -/
theorem exists_parse_productions {ps : List Production} (h : Production.WellFormed ps) {text root : String}
    (htext : Production.Written ps text) (hroot : root ∈ Production.names ps) :
    ∃ ts g, tokens text = .ok ts ∧ Closed ts ∧ (ruleNames (values ts)).Nodup ∧
      parse text root = .ok g ∧ g.language = Utf8.encoded (Production.meaning ps root) := by
  obtain ⟨ts, ds, hts, hdeclares, hds⟩ := Production.exists_tokens h htext
  have names := Production.names_eq hds
  obtain ⟨g, r, hg, hr, hlanguage⟩ :=
    exists_parse_language hts hdeclares (names ▸ h.nodup) (show root ∈ ds.map (·.name) from names ▸ hroot)
  refine ⟨ts, g, hts, hdeclares.closed, ?_, hg, ?_⟩
  · rw [hdeclares.ruleNames_eq, names]
    exact h.nodup
  · rw [hlanguage, Production.reading_eq h.nodup hds (names ▸ hr)]

end ConstrainedDecoding.Grammar
