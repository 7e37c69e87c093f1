import ConstrainedDecoding.Proofs.AcceptedCounts
import ConstrainedDecoding.Proofs.SchemaReading

/-!
# Schemas and patterns as grammar texts that are accepted

The productions of a document have distinct names, use no other names, and can be read if its counts
are not too great. So the grammar text of a document is then accepted, and only then, and so is that of a
pattern.
-/
namespace ConstrainedDecoding.Schema

open Ebnf
open Json (Value)

variable {document : Value} {strict : Bool} {l : Layout} {o : Options} {p : Progress}

/-! ## Names -/

/-- The names that are taken when the conversion is done have productions, unless they are for the
document itself and for white space. -/
theorem Complete.usable (h : Complete document strict l [] p) {known : String → Prop}
    (hknown : ∀ q ∈ p.productions, known q.name) : p.Usable known := by
  have name {n : String} (hn : n ∈ p.productions.map (·.name)) : IsName n ∧ known n := by
    refine ⟨h.sound.named n (List.mem_cons_of_mem _ (List.mem_cons_of_mem _ hn)), ?_⟩
    obtain ⟨q, hq, rfl⟩ := List.mem_map.1 hn
    exact hknown q hq
  refine ⟨fun n hn => ?_, fun n hn => ?_, fun n hn => ?_, fun key n hn => ?_⟩
  · obtain ⟨s, -, m, -, hmem⟩ := h.value n hn
    exact name (List.mem_map_of_mem hmem)
  · obtain ⟨c, -, hmem⟩ := h.string n hn
    exact name (List.mem_map_of_mem hmem)
  · exact name (List.mem_map_of_mem (h.sound.char n hn))
  · exact name (h.sound.reference key n hn)

/-! ## Counts -/

/-- The quantifier for bounds has these bounds. -/
theorem bounds_of_mem_ofBounds? {least : Nat} {most : Option Nat} {q : Quantifier}
    (h : q ∈ Quantifier.ofBounds? least most) : q.least = least ∧ q.most = most := by
  unfold Quantifier.ofBounds? at h
  split_ifs at h with hnone hstar hplus hquestion
  · cases h
  · obtain rfl := Option.some.inj h
    exact ⟨hstar.1.symm, hstar.2.symm⟩
  · obtain rfl := Option.some.inj h
    exact ⟨hplus.1.symm, hplus.2.symm⟩
  · obtain rfl := Option.some.inj h
    exact ⟨hquestion.1.symm, hquestion.2.symm⟩
  · cases most with
    | none =>
      obtain rfl := Option.some.inj h
      exact ⟨rfl, rfl⟩
    | some m =>
      obtain rfl := Option.some.inj h
      by_cases heq : least = m <;> simp [heq, Quantifier.least, Quantifier.most]

/-- Bounds that can be written still can when they are lowered. -/
theorem repeats_fits {least : Nat} {most : Option Nat} (hleast : least ≤ Quantifier.limit)
    (hmost : ∀ m ∈ most, least ≤ m ∧ m ≤ Quantifier.limit) : Repeats Quantifier.Fits least most := by
  intro k q hq
  obtain ⟨hq, hq'⟩ := bounds_of_mem_ofBounds? hq
  rw [Quantifier.Fits, hq, hq']
  refine ⟨(Nat.sub_le ..).trans hleast, fun n hn => ?_⟩
  obtain ⟨m, hm, rfl⟩ := Option.mem_map.1 hn
  exact ⟨Nat.sub_le_sub_right (hmost m hm).1 k, (Nat.sub_le ..).trans (hmost m hm).2⟩

theorem repeats_ordered {least : Nat} {most : Option Nat} (h : ∀ m ∈ most, least ≤ m) :
    Repeats Quantifier.Ordered least most := by
  intro k q hq n hn
  obtain ⟨hleast, hmost⟩ := bounds_of_mem_ofBounds? hq
  rw [hmost] at hn
  obtain ⟨m, hm, rfl⟩ := Option.mem_map.1 hn
  rw [hleast]
  exact Nat.sub_le_sub_right (h m hm) k

/-- The counts of the schemas that a document asks for are in order. -/
theorem Asked.countsOrdered {s : Schema} (h : Asked document strict s) : CountsFit Quantifier.Ordered s := by
  have shaped := h.proper.shaped
  cases s with
  | string least most => exact repeats_ordered shaped
  | array initial more least most => exact repeats_ordered fun m hm => (shaped.1 m hm).1
  | _ => trivial

/-- The counts of the schemas that a document asks for can be written. -/
theorem Asked.countsFit {s : Schema} (h : Asked document strict s) (hdocument : Limited document) :
    CountsFit Quantifier.Fits s := by
  have shaped := h.proper.shaped
  have counted := h.proper.counted hdocument
  cases s with
  | string least most => exact repeats_fits counted.1 fun m hm => ⟨shaped m hm, counted.2 m hm⟩
  | array initial more least most =>
    exact repeats_fits counted.1 fun m hm => ⟨(shaped.1 m hm).1, counted.2 m hm⟩
  | _ => trivial

/-! ## Productions -/

theorem names_blankProductions (o : Options) :
    (Production.names (blankProductions o)).Sublist ["ws"] := by
  unfold blankProductions
  cases Layout.ofOptions o <;> simp

@[simp] theorem mem_blankProductions {q : Production} :
    q ∈ blankProductions o ↔ o.anyWhitespace = true ∧ q = ⟨"ws", [whitespaceSource o]⟩ := by
  cases hany : o.anyWhitespace <;> simp [blankProductions, Layout.ofOptions, hany]

/-- The longest run of white space can be written as a bound of a repetition, if it is written. -/
def Options.Limited (o : Options) : Prop :=
  o.anyWhitespace = true → ∀ n ∈ o.maxWhitespace, n ≤ Quantifier.limit

theorem limited_default : Options.default.Limited := fun _ => nofun

theorem Layout.Known.mono {known known' : String → Prop} (h : l.Known known) (himp : ∀ n, known n → known' n) :
    l.Known known' := by
  cases l with
  | anyWhitespace => exact himp _ h
  | fixed => trivial

/-- There is a rule for white space if the layout needs one. -/
theorem known_ofOptions (o : Options) : (Layout.ofOptions o).Known (· ∈ Production.names (blankProductions o)) := by
  unfold blankProductions
  cases Layout.ofOptions o <;> simp [Layout.Known]

theorem formed_whitespaceSource {known : String → Prop} {fits : Quantifier → Prop}
    (hfits : ∀ q : Quantifier, q.Fits → fits q) (h : ∀ n ∈ o.maxWhitespace, fits (.between 0 n)) :
    Formed known fits .sequence (whitespaceSource o) := by
  refine formed_quantified.2 ⟨formed_charClass.2 writes_blanks, ?_⟩
  split
  · rename_i n hn
    exact h n hn
  · exact hfits _ Quantifier.fits_star

/-- The productions of a document: one for the document, those of a complete progress, and those for
white space. -/
structure Produced (document : Value) (o : Options) (p : Progress) (root : Source) (ps : List Production) : Prop where
  complete : Complete document o.strict (Layout.ofOptions o) [] p
  source : root ∈ source? p (Layout.ofOptions o) 0 (ofValue o.strict document)
  mem : ∀ q, q ∈ ps ↔ q = ⟨"root", [root]⟩ ∨ q ∈ p.productions ∨ q ∈ blankProductions o
  nodup : (Production.names ps).Nodup

/-- The productions of a document, where they can be read. -/
structure Converted (document : Value) (o : Options) (p : Progress) (root : Source) (ps : List Production) : Prop
    extends Produced document o p root ps where
  wellFormed : Production.WellFormed ps

section

variable {ps : List Production}

theorem exists_produced (h : productions document o = .ok ps) : ∃ p root, Produced document o p root ps := by
  obtain ⟨p, root, hp, hroot, rfl⟩ := exists_complete h
  refine ⟨p, root, hp, hroot, fun q => by simp, ?_⟩
  -- the names are some of those that the conversion has taken
  have hsub := ((names_blankProductions o).append_right (Production.names p.productions)).cons_cons "root"
  refine List.Perm.nodup_iff ?_ |>.2 (hp.sound.nodup.sublist hsub)
  simp only [Production.names, List.cons_append, List.map_cons, List.map_append]
  exact (List.perm_append_comm.trans (((List.reverse_perm _).map _).append_left _)).cons _

/-- The productions of a document have names of their own and use no others, and their counts are like those of
the document. -/
theorem Produced.regular {root : Source} (h : Produced document o p root ps) {fits : Quantifier → Prop}
    (hfits : ∀ q : Quantifier, q.Fits → fits q) (counts : ∀ s, Asked document o.strict s → CountsFit fits s)
    (hblanks : o.anyWhitespace = true → ∀ n ∈ o.maxWhitespace, fits (.between 0 n)) : Production.Regular fits ps := by
  have taken : ∀ q ∈ ps, q.name ∈ p.taken [] := by
    intro q hq
    rcases (h.mem q).1 hq with rfl | hq | hq
    · exact List.mem_cons_self
    · exact List.mem_cons_of_mem _ (List.mem_cons_of_mem _ (List.mem_map_of_mem hq))
    · obtain ⟨-, rfl⟩ := mem_blankProductions.1 hq
      exact List.mem_cons_of_mem _ List.mem_cons_self
  have named : ∀ q ∈ ps, IsName q.name := fun q hq => h.complete.sound.named _ (taken q hq)
  have known : ∀ q ∈ p.productions, q.name ∈ Production.names ps :=
    fun q hq => List.mem_map_of_mem ((h.mem q).2 (Or.inr (Or.inl hq)))
  have hl : (Layout.ofOptions o).Known (· ∈ Production.names ps) :=
    (known_ofOptions o).mono fun n hn => by
      obtain ⟨q, hq, rfl⟩ := List.mem_map.1 hn
      exact List.mem_map_of_mem ((h.mem q).2 (Or.inr (Or.inr hq)))
  have usable := h.complete.usable known
  have formed : ∀ q ∈ ps, q.alternatives ≠ [] ∧
      ∀ s ∈ q.alternatives, Formed (· ∈ Production.names ps) fits .sequence s := by
    intro q hq
    rcases (h.mem q).1 hq with rfl | hq' | hq'
    · exact ⟨List.cons_ne_nil _ _, List.forall_mem_singleton.2
        ((inherited_formed hfits hl usable counts).of_source 0 _ .root root h.source)⟩
    · exact (h.complete.sound.origin q hq').formed hfits hl usable
        (fun q hq => ⟨named q ((h.mem q).2 (Or.inr (Or.inl hq))), known q hq⟩) counts
    · obtain ⟨hany, rfl⟩ := mem_blankProductions.1 hq'
      exact ⟨List.cons_ne_nil _ _, List.forall_mem_singleton.2 (formed_whitespaceSource hfits (hblanks hany))⟩
  exact ⟨h.nodup, named, fun q hq => (formed q hq).1, fun q hq => (formed q hq).2⟩

/-- A document has productions if its schema is converted. -/
theorem exists_productions_of_ran (root : Source) (h : Conversion.Ran ((ofValue o.strict document).toSource
    (Layout.ofOptions o) (follow document o.strict (Layout.ofOptions o) (countReferences document + 1)) 0 "#")
      Conversion.start root p) : ∃ ps, productions document o = .ok ps := by
  rw [productions, h]
  exact ⟨_, rfl⟩

/-- The productions of a document can be read if its counts can. -/
theorem exists_converted (hdocument : Limited document) (ho : o.Limited) (h : productions document o = .ok ps) :
    ∃ p root, Converted document o p root ps := by
  obtain ⟨p, root, hproduced⟩ := exists_produced h
  refine ⟨p, root, hproduced, hproduced.regular (fun _ h => h) (fun _ hs => hs.countsFit hdocument)
    fun hany n hn => ⟨Nat.zero_le _, ?_⟩⟩
  rintro _ ⟨⟩
  exact ⟨Nat.zero_le _, ho hany n hn⟩

/-- If the productions of a document can be read, so can its longest run of white space. -/
theorem Converted.limited {root : Source} (h : Converted document o p root ps) : o.Limited := by
  intro hany n hn
  have hmem : ⟨"ws", [whitespaceSource o]⟩ ∈ ps := (h.mem _).2 (Or.inr (Or.inr (mem_blankProductions.2 ⟨hany, rfl⟩)))
  have hformed := h.wellFormed.sources _ hmem _ (List.mem_singleton_self _)
  have hfits := (formed_quantified.1 hformed).2
  rw [Option.mem_def.1 hn] at hfits
  exact (hfits.2 n rfl).2

/-- The productions of a document can be read if their text is accepted. -/
theorem converted_of_parse {text : String} {ds : List Declaration} (h : productions document o = .ok ps)
    (htext : Production.Written ps text) (hparse : Ebnf.parse text "root" = .ok ds) :
    ∃ p root, Converted document o p root ps := by
  obtain ⟨p, root, hproduced⟩ := exists_produced h
  have hregular : Production.Regular Quantifier.Ordered ps := hproduced.regular (fun _ h => h.ordered)
    (fun _ hs => hs.countsOrdered) fun _ n _ m _ => Nat.zero_le m
  exact ⟨p, root, hproduced, hregular.wellFormed htext hparse⟩

/-- A text of productions is accepted if they can be read, and describes what the source for the document does. -/
theorem Converted.exists_parse {root : Source} {text : String} (h : Converted document o p root ps)
    (htext : Production.Written ps text) :
    ∃ ts g, tokens text = .ok ts ∧ Closed ts ∧ (ruleNames (Ebnf.values ts)).Nodup ∧
      Grammar.parse text "root" = .ok g ∧ g.language = Utf8.encoded (root.language (Production.meaning ps)) := by
  have hroot := (h.mem _).2 (Or.inl rfl)
  obtain ⟨ts, g, hts, hclosed, hnodup, hg, hlanguage⟩ := Grammar.exists_parse_productions
    h.wellFormed htext (show "root" ∈ Production.names ps from List.mem_map_of_mem hroot)
  refine ⟨ts, g, hts, hclosed, hnodup, hg, hlanguage.trans ?_⟩
  have := Production.meaning_of_mem h.wellFormed.nodup hroot
  rw [this]
  simp

end

end ConstrainedDecoding.Schema

namespace ConstrainedDecoding.Grammar

open Ebnf

/-- A document has a grammar if it is converted and its counts can be read. -/
theorem exists_ofSchema {document : Json.Value} {o : Schema.Options} {ps : List Production}
    (hdocument : Schema.Limited document) (ho : o.Limited) (hps : Schema.productions document o = .ok ps) :
    ∃ g, ofSchema document o = .ok g := by
  obtain ⟨text, htext⟩ : ∃ text, Schema.ebnfText document o = .ok text := by
    rw [Schema.ebnfText, hps]
    exact ⟨_, rfl⟩
  obtain ⟨ps, hps, hwritten⟩ := Schema.written_of_ebnfText htext
  obtain ⟨p, root, hconverted⟩ := Schema.exists_converted hdocument ho hps
  obtain ⟨-, g, -, -, -, hg, -⟩ := hconverted.exists_parse hwritten
  exact ⟨g, Except.bind_eq_ok.2 ⟨text, Except.mapError_eq_ok.2 htext, Except.mapError_eq_ok.2 hg⟩⟩

/-- A grammar of a document describes what the source for the document does. -/
theorem language_of_ofSchema {document : Json.Value} {o : Schema.Options} {g : Grammar}
    (h : ofSchema document o = .ok g) : ∃ p root ps, Schema.Converted document o p root ps ∧
      g.language = Utf8.encoded (root.language (Production.meaning ps)) := by
  obtain ⟨text, htext, h⟩ := Except.bind_eq_ok.1 h
  obtain ⟨ps, hps, hwritten⟩ := Schema.written_of_ebnfText (Except.mapError_eq_ok.1 htext)
  have hg := Except.mapError_eq_ok.1 h
  obtain ⟨ds, hds, -⟩ := parse_eq_ok.1 hg
  obtain ⟨p, root, hconverted⟩ := Schema.converted_of_parse hps hwritten hds
  obtain ⟨-, g', -, -, -, hg', hlanguage⟩ := hconverted.exists_parse hwritten
  obtain rfl := Except.ok.inj (hg.symm.trans hg')
  exact ⟨p, root, ps, hconverted, hlanguage⟩

/-- The grammar text that is written for a pattern, or for a document with counts that are not too
great, is accepted: it is cut into tokens, no name is declared twice, and all that are used are declared. -/
theorem parses_emitted_texts :
    (∀ pattern text, Regex.ebnfText pattern = .ok text → ∃ ts g, tokens text = .ok ts ∧ Closed ts ∧
      (ruleNames (values ts)).Nodup ∧ parse text "root" = .ok g) ∧
    ∀ (document : Json.Value) (o : Schema.Options) (text : String), Schema.Limited document → o.Limited →
      Schema.ebnfText document o = .ok text →
        ∃ ts g, tokens text = .ok ts ∧ Closed ts ∧ (ruleNames (values ts)).Nodup ∧
          parse text "root" = .ok g := by
  constructor
  · intro pattern text h
    obtain ⟨-, ts, g, -, hts, hclosed, hnodup, hg, -⟩ := Regex.exists_parse_ebnfText h
    exact ⟨ts, g, hts, hclosed, hnodup, hg⟩
  · intro document o text hdocument ho h
    obtain ⟨ps, hps, hwritten⟩ := Schema.written_of_ebnfText h
    obtain ⟨p, root, hconverted⟩ := Schema.exists_converted hdocument ho hps
    obtain ⟨ts, g, hts, hclosed, hnodup, hg, -⟩ := hconverted.exists_parse hwritten
    exact ⟨ts, g, hts, hclosed, hnodup, hg⟩

/-- The schema of arrays of booleans. -/
def booleans : Json.Value := .object [("type", .string "array"), ("items", .object [("type", .string "boolean")])]

/-- The texts for a pattern and for the arrays of booleans. -/
theorem parses_small_texts :
    (∃ text ts g, Regex.ebnfText "a+" = .ok text ∧ tokens text = .ok ts ∧ Closed ts ∧
      (ruleNames (values ts)).Nodup ∧ parse text "root" = .ok g) ∧
    ∃ text ts g, Schema.ebnfText booleans .default = .ok text ∧ tokens text = .ok ts ∧ Closed ts ∧
      (ruleNames (values ts)).Nodup ∧ parse text "root" = .ok g := by
  constructor
  · have written : Regex.ebnfText "a+" = .ok "root ::= \"a\"+\n" := by cbv
    obtain ⟨ts, g, h⟩ := parses_emitted_texts.1 "a+" _ written
    exact ⟨_, ts, g, written, h⟩
  · have read : Schema.ofValue true booleans = .array [] (some .boolean) 0 none := by cbv
    have limited : Schema.Limited booleans := Schema.limited_of_small (by cbv)
    obtain ⟨ps, hps⟩ : ∃ ps, Schema.productions booleans .default = .ok ps := by
      let item : Source := .group [.literal "true", .literal "false"]
      refine Schema.exists_productions_of_ran (p := Schema.Conversion.start)
        (Schema.arraySource (.ofOptions .default) 0 [] (some item) 0 none) ?_
      rw [show Schema.Options.default.strict = true from rfl, read]
      exact Schema.Conversion.ran_pure.2 ⟨rfl, rfl⟩
    have written : Schema.ebnfText booleans .default = .ok (ps.foldl (fun out p => out ++ p.text) "") := by
      rw [Schema.ebnfText, hps]
      rfl
    obtain ⟨ts, g, h⟩ := parses_emitted_texts.2 booleans .default _ limited Schema.limited_default written
    exact ⟨_, ts, g, written, h⟩

end ConstrainedDecoding.Grammar
