import ConstrainedDecoding.Proofs.Meaning
import ConstrainedDecoding.Proofs.Sources
import ConstrainedDecoding.Proofs.TokenEnds

/-!
# Written literals and classes read back

Literals and classes are written by the front ends and by the printer of grammars, which differ in
what they escape. Each form is one token wherever it stands and whatever follows it, with the text or
the ranges that were written. As the right-hand side of a rule it gives back the leaf it was
written for.
-/
namespace ConstrainedDecoding

open Ebnf

namespace Ebnf

/-! ## Single tokens -/

/-- Wherever a text stands and whatever follows it, it is cut into one token, of which `V` holds, and
cutting goes on right behind it. -/
def IsToken (s : String) (V : Token → Prop) : Prop :=
  ∀ (p : Position) (rest : List Char), ∃ t, V t ∧
    tokensFrom p (s.toList ++ rest) =
      (tokensFrom (p.right (Utf8.size s.toList)) rest).map (⟨p, t⟩ :: ·)

section

variable {s : String} {V W : Token → Prop} {set : CharClass}

theorem IsToken.imp (h : IsToken s V) (hV : ∀ t, V t → W t) : IsToken s W := fun p rest =>
  let ⟨t, ht, htokens⟩ := h p rest
  ⟨t, hV t ht, htokens⟩

theorem isToken_of_reads {c : Char} {cs : List Char} (hs : s.toList = c :: cs) (hc : c ∉ blanks)
    (h : ∀ p rest, Reads (readToken p c (cs ++ rest)) V p.line rest) : IsToken s V := by
  intro p rest
  obtain ⟨cut, hcut, hV, -, hrest⟩ := h p rest
  obtain ⟨used, hused, hposition⟩ := leaves_readToken hcut
  -- what is left is what follows the text, so the token took the text and nothing else
  obtain rfl : c :: cs = used := by
    rw [hrest, ← List.cons_append] at hused
    exact List.append_cancel_right hused
  simp only [blanks, List.mem_cons, List.not_mem_nil, or_false, not_or] at hc
  have skip : skipBlanks false p (c :: (cs ++ rest)) = (p, c :: (cs ++ rest)) := by simp [skipBlanks, hc]
  refine ⟨cut.value, hV, ?_⟩
  rw [hs, List.cons_append, tokensFrom_eq p, skip]
  simp only [hcut, hposition, hrest]

theorem isToken_literal (s : String) : IsToken (Grammar.literalText (Utf8.ofString s)) (· = .literal s) :=
  isToken_of_reads (toList_literalText s) (by decide) (reads_quoted s)

theorem ClassStyle.Writes.isToken {style : ClassStyle} (h : style.Writes set) :
    IsToken (style.text set) (IsClass set) := by
  obtain ⟨ms, hs, hcode, hranges⟩ := h
  exact isToken_of_reads hs (by decide) (reads_brackets hcode hranges)

/-- A token is a class that is read with the negation and the ranges of a set. -/
def IsReadAs (set : CharClass) (t : Token) : Prop :=
  ∃ members close, t = .charClass set.negated members close ∧ classRanges close members = .ok set.ranges

theorem IsClass.isReadAs {t : Token} (h : IsClass set t) : IsReadAs set t := by
  obtain ⟨members, close, rfl, hranges⟩ := h
  exact ⟨members, close, rfl, classRanges_of_ranges hranges rfl⟩

end

end Ebnf

/-! ## Texts of one rule -/

namespace Grammar

/-- A text of one rule is read as a grammar whose root is drawn from what stands on the right. -/
theorem exists_parse_rule {n s : String} {v : Phrase} (hn : IsName n)
    (h : Cuts s ends (Spells (NamesAt [n]) .choice · v)) :
    ∃ g t, parse (n ++ " ::= " ++ s) n = .ok g ∧ g.body g.root = some t ∧ v.Drawn (g.Makes 1) t := by
  let d : Declaration := ⟨n, 0, v, none⟩
  have self : NamesAt [n] n 0 := rfl
  have line : Cuts (n ++ " ::= " ++ s) ends (SpellsUntitled (NamesAt [n]) · d) := by
    refine (cuts_title hn).append h (fun _ _ => follows_anything _) ?_
    rintro _ us rfl hus
    have spells := SpellsRule.rule self hus .nothing
    rw [List.append_nil] at spells
    exact ⟨us, rfl, spells⟩
  have lines : Lines (NamesAt [n]) .start ((n ++ " ::= " ++ s).toList ++ []) none [d] :=
    .cons line nofun nofun fun q last _ _ => lines_nil q last
  rw [List.append_nil] at lines
  obtain ⟨ts, us, hts, hus, hspells⟩ := tokens_of_lines lines
  have nodup : ([d].map (·.name)).Nodup := List.nodup_singleton n
  have root : n ∈ [d].map (·.name) := List.mem_singleton_self n
  have declares : Declares (values ts) [d] := ⟨us, hus, hspells⟩
  obtain ⟨g, hg, hfinish⟩ := exists_parse hts declares nodup root
  obtain ⟨-, found, stands⟩ :=
    draft_spec (inOrder_of_namesAt (fun d hd => (hspells.spelled d hd).1) nodup) hfinish
  obtain ⟨rule, hrule, -, hdrawn, -⟩ := stands 0 d rfl
  have first : g.root = 0 := by
    have := found root
    simpa [d] using this.symm
  refine ⟨g, _, hg, ?_, hdrawn⟩
  rw [body, first, hrule]
  rfl

/-- An element that can only be drawn as a leaf is read as that leaf. -/
theorem exists_parse_leaf {n s : String} {v : Phrase} {l : Leaf} (hn : IsName n)
    (h : Cuts s anything (Spells (NamesAt [n]) .element · v)) (hv : ∀ B u, v.Drawn B u → u = .leaf l) :
    ∃ g, parse (n ++ " ::= " ++ s) n = .ok g ∧ g.body g.root = some (.choice [.sequence [.leaf l]]) := by
  obtain ⟨g, t, hg, ht, hdrawn⟩ :=
    exists_parse_rule hn (h.of_anything.imp fun _ hus => .only (.last (.plain hus)))
  refine ⟨g, hg, ht.trans (congrArg some ?_)⟩
  obtain ⟨u, us, hu, hus, rfl⟩ := drawn_choice_cons.1 hdrawn
  obtain rfl := Tree.choice.inj (drawn_choice_nil.1 hus)
  obtain ⟨w, ws, hw, hws, rfl⟩ := drawn_sequence_cons.1 hu
  obtain rfl := Tree.sequence.inj (drawn_sequence_nil.1 hws)
  obtain rfl := hv _ w hw
  rfl

end Grammar

/-! ## Written forms -/

namespace Ebnf

/-- A text is one token, of which `V` holds, and as the right-hand side of a rule it is a leaf. -/
structure WrittenForm (s : String) (V : Token → Prop) (l : Leaf) : Prop where
  isToken : IsToken s V
  parse : ∀ n, IsName n → ∃ g, Grammar.parse (n ++ " ::= " ++ s) n = .ok g ∧
    g.body g.root = some (.choice [.sequence [.leaf l]])

/-- The leaf of a literal. -/
def literalLeaf (s : String) : Leaf := if s = "" then .empty else .literal (Utf8.ofString s)

theorem writtenForm_literal (s : String) :
    WrittenForm (Grammar.literalText (Utf8.ofString s)) (· = .literal s) (literalLeaf s) := by
  refine ⟨isToken_literal s, fun n hn => ?_⟩
  by_cases hs : s = ""
  · subst hs
    rw [literalLeaf, if_pos rfl]
    refine Grammar.exists_parse_leaf (v := .empty) hn (cuts_literal.imp ?_) fun _ _ h => by
      simpa only [Phrase.Drawn] using h
    rintro _ rfl
    exact .emptyLiteral
  · rw [literalLeaf, if_neg hs]
    refine Grammar.exists_parse_leaf (v := .literal s) hn (cuts_literal.imp ?_) fun _ _ h => by
      simpa only [Phrase.Drawn] using h
    rintro _ rfl
    exact .literal hs

theorem ClassStyle.Writes.writtenForm {style : ClassStyle} {set : CharClass} (h : style.Writes set) :
    WrittenForm (style.text set) (IsReadAs set) (.charClass set) := by
  refine ⟨h.isToken.imp fun _ => IsClass.isReadAs, fun n hn => ?_⟩
  obtain ⟨ms, hs, hcode, hranges⟩ := h
  refine Grammar.exists_parse_leaf (v := .charClass set) hn ((cuts_brackets hs hcode hranges).imp ?_)
    fun _ _ h => by simpa only [Phrase.Drawn] using h
  rintro _ ⟨members, close, rfl, h⟩
  exact .charClass h

/-- Both forms of a literal read back as its text, and both forms of a class, in which the bounds of
each range are in order, read back as its negation and its ranges. -/
theorem written_forms_read_back :
    (∀ s : String, ∀ text ∈ [Source.literalText s, Grammar.literalText (Utf8.ofString s)],
      WrittenForm text (· = .literal s) (literalLeaf s)) ∧
    ∀ set : CharClass, (∀ r ∈ set.ranges, r.1 ≤ r.2) →
      ∀ text ∈ [ClassStyle.numbered.text set, Grammar.classText set],
        WrittenForm text (IsReadAs set) (.charClass set) := by
  constructor
  · intro s text htext
    have same : Source.literalText s = Grammar.literalText (Utf8.ofString s) :=
      String.toList_inj.1 (toList_sourceLiteral s)
    obtain rfl : text = Grammar.literalText (Utf8.ofString s) := by simpa [same] using htext
    exact writtenForm_literal s
  · intro set hset text htext
    have printed : Grammar.classText set = ClassStyle.printed.text set := rfl
    rw [printed, List.mem_pair] at htext
    rcases htext with rfl | rfl
    · exact (ClassStyle.writes_numbered hset).writtenForm
    · exact (ClassStyle.writes_printed hset).writtenForm

/-- A dash and a bracket as bounds, a caret, surrogates, and numbers that are no code points. -/
def oddClass : CharClass :=
  ⟨true, [(0x2d, 0x5b), (0x5e, 0x5e), (0xd800, 0xdfff), (0x110000, 0xffffffff)]⟩

theorem oddClass_reads_back : (∀ r ∈ oddClass.ranges, r.1 ≤ r.2) ∧
    ∀ text ∈ ["[^\\--\\[\\^\\ud800-\\udfff\\U00110000-\\Uffffffff]",
        "[^\\--[\\^\\ud800-\\udfff\\U00110000-\\Uffffffff]"],
      WrittenForm text (IsReadAs oddClass) (.charClass oddClass) := by
  have ordered : ∀ r ∈ oddClass.ranges, r.1 ≤ r.2 := by simp [oddClass]
  have numbered : ClassStyle.numbered.text oddClass =
      "[^\\--\\[\\^\\ud800-\\udfff\\U00110000-\\Uffffffff]" := by cbv
  have printed : Grammar.classText oddClass =
      "[^\\--[\\^\\ud800-\\udfff\\U00110000-\\Uffffffff]" := by cbv
  refine ⟨ordered, ?_⟩
  rw [← numbered, ← printed]
  exact written_forms_read_back.2 oddClass ordered

end Ebnf

end ConstrainedDecoding
