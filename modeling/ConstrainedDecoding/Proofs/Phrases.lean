import ConstrainedDecoding.Ebnf.Phrase
import ConstrainedDecoding.Proofs.Language

/-!
# What grammar texts say

Tokens spell phrases: elements, which may carry one quantifier, stand one after the other in
sequences, and bars separate sequences in choices. A phrase describes a language once it is said
what the rules describe, and the declared rules describe the least that goes with their phrases.
-/
namespace ConstrainedDecoding.Ebnf

/-! ## Spelling -/

/-- The ranges of the members of a class: two members with a dash between them are a range, and
every other member is one by itself. -/
inductive Ranges : List ClassMember → List (UInt32 × UInt32) → Prop
  | nil : Ranges [] []
  | range {lo hi members ranges} : lo.codePoint ≤ hi.codePoint → Ranges members ranges →
      Ranges (lo :: .dash :: hi :: members) ((lo.codePoint, hi.codePoint) :: ranges)
  | single {m members ranges} : (∀ hi rest, members ≠ .dash :: hi :: rest) →
      Ranges members ranges → Ranges (m :: members) ((m.codePoint, m.codePoint) :: ranges)

/-- The bounds that the tokens of a quantifier spell. -/
inductive Bounds : List Token → UInt32 → Option UInt32 → Prop
  | star : Bounds [.star] 0 none
  | plus : Bounds [.plus] 1 none
  | question : Bounds [.question] 0 (some 1)
  | exactly {n : UInt32} : Bounds [.leftBrace, .integer n.toNat, .rightBrace] n (some n)
  | atLeast {n : UInt32} : Bounds [.leftBrace, .integer n.toNat, .comma, .rightBrace] n none
  | between {m n : UInt32} : m ≤ n →
      Bounds [.leftBrace, .integer m.toNat, .comma, .integer n.toNat, .rightBrace] m (some n)

/-- The places where a phrase can stand. An item is an element with or without a quantifier. -/
inductive Role
  | element
  | item
  | sequence
  | choice

/-- Tokens spell a phrase, given the rules that identifiers refer to. -/
inductive Spells (refers : String → RuleId → Prop) : Role → List Token → Phrase → Prop
  | unit : Spells refers .element [.leftParen, .rightParen] .empty
  | emptyLiteral : Spells refers .element [.literal ""] .empty
  | literal {text} : text ≠ "" → Spells refers .element [.literal text] (.literal text)
  | charClass {negated members close ranges} : Ranges (members.map (·.value)) ranges →
      Spells refers .element [.charClass negated members close] (.charClass ⟨negated, ranges⟩)
  | identifier {name r} : refers name r →
      Spells refers .element [.identifier name] (.reference r)
  | group {ts p} : Spells refers .choice ts p →
      Spells refers .element (.leftParen :: (ts ++ [.rightParen])) p
  | plain {ts p} : Spells refers .element ts p → Spells refers .item ts p
  | quantified {ts us p least most} : Spells refers .element ts p → Bounds us least most →
      Spells refers .item (ts ++ us) (.quantified p least most)
  | last {ts p} : Spells refers .item ts p → Spells refers .sequence ts (.sequence [p])
  | further {ts us p ps} : Spells refers .item ts p → Spells refers .sequence us (.sequence ps) →
      Spells refers .sequence (ts ++ us) (.sequence (p :: ps))
  | only {ts p} : Spells refers .sequence ts p → Spells refers .choice ts (.choice [p])
  | bar {ts us p ps} : Spells refers .sequence ts p → Spells refers .choice us (.choice ps) →
      Spells refers .choice (ts ++ .pipe :: us) (.choice (p :: ps))

/-- Tokens spell what has to follow a rule, if anything. -/
inductive SpellsLookahead (refers : String → RuleId → Prop) : List Token → Option Phrase → Prop
  | nothing : SpellsLookahead refers [] none
  | phrase {ts p} : Spells refers .choice ts p →
      SpellsLookahead refers (.leftLookahead :: (ts ++ [.rightParen])) (some p)

/-- Tokens spell the declaration of a rule. -/
inductive SpellsRule (refers : String → RuleId → Prop) : List Token → Declaration → Prop
  | rule {name r ts body us lookahead} : refers name r → Spells refers .choice ts body →
      SpellsLookahead refers us lookahead →
      SpellsRule refers (.ruleName name :: .assign :: (ts ++ us)) ⟨name, r, body, lookahead⟩

/-- Tokens spell declarations one after the other. -/
inductive SpellsRules (refers : String → RuleId → Prop) : List Token → List Declaration → Prop
  | nil : SpellsRules refers [] []
  | cons {ts d us ds} : SpellsRule refers ts d → SpellsRules refers us ds →
      SpellsRules refers (ts ++ us) (d :: ds)

/-- A list has a name at a place. -/
def NamesAt (names : List String) (name : String) (r : RuleId) : Prop := names[r]? = some name

/-- The tokens of a text declare rules: a name refers to the rule that has it, wherever that rule
is declared, and the end of the text follows. -/
def Declares (ts : List Token) (ds : List Declaration) : Prop :=
  ∃ us, ts = us ++ [.endOfFile] ∧ SpellsRules (NamesAt (ds.map (·.name))) us ds

/-! ## Parts -/

mutual

/-- A phrase and the phrases inside it. -/
def Phrase.parts : Phrase → List Phrase
  | .quantified body least most => .quantified body least most :: body.parts
  | .sequence items => .sequence items :: Phrase.partsOfAll items
  | .choice items => .choice items :: Phrase.partsOfAll items
  | p => [p]

/-- Phrases and the phrases inside them. -/
def Phrase.partsOfAll : List Phrase → List Phrase
  | [] => []
  | p :: ps => p.parts ++ Phrase.partsOfAll ps

end

theorem Phrase.mem_partsOfAll {p : Phrase} {ps : List Phrase} :
    p ∈ Phrase.partsOfAll ps ↔ ∃ q ∈ ps, p ∈ q.parts := by
  induction ps with
  | nil => simp [Phrase.partsOfAll]
  | cons q ps ih => simp [Phrase.partsOfAll, ih]

/-- What is so of a part of what is spelled: references are what identifiers refer to, and a
quantified part is spelled as an element, with its bounds in order. -/
def PartSpelled (refers : String → RuleId → Prop) : Phrase → Prop
  | .reference r => ∃ name, refers name r
  | .quantified body least most => (∃ ts, Spells refers .element ts body) ∧ ∀ m ∈ most, least ≤ m
  | _ => True

theorem Bounds.le {ts : List Token} {least m : UInt32} (h : Bounds ts least (some m)) : least ≤ m := by
  generalize hmost : some m = most at h
  cases h with
  | question =>
    cases hmost
    decide
  | exactly =>
    cases hmost
    exact UInt32.le_refl _
  | between hle =>
    cases hmost
    exact hle
  | _ => cases hmost

theorem Spells.parts {refers : String → RuleId → Prop} {role : Role} {ts : List Token} {p : Phrase}
    (h : Spells refers role ts p) : ∀ q ∈ p.parts, PartSpelled refers q := by
  induction h with
  | unit | emptyLiteral | literal | charClass => simp [Phrase.parts, PartSpelled]
  | @identifier name r hr => simpa [Phrase.parts, PartSpelled] using ⟨name, hr⟩
  | group _ ih | plain _ ih => exact ih
  | quantified hp hbounds ih =>
    refine List.forall_mem_cons.2 ⟨⟨⟨_, hp⟩, ?_⟩, ih⟩
    rintro m rfl
    exact hbounds.le
  | last _ ih | only _ ih =>
    refine List.forall_mem_cons.2 ⟨trivial, fun q hq => ih q ?_⟩
    simpa [Phrase.partsOfAll] using hq
  | further _ _ ih ihs | bar _ _ ih ihs =>
    refine List.forall_mem_cons.2 ⟨trivial, fun q hq => ?_⟩
    rcases List.mem_append.1 hq with hq | hq
    · exact ih q hq
    · exact ihs q (List.mem_cons_of_mem _ hq)

/-- The phrases of a declaration. -/
def Declaration.phrases (d : Declaration) : List Phrase := d.body :: d.lookahead.toList

theorem SpellsRules.spelled {refers : String → RuleId → Prop} {ts : List Token}
    {ds : List Declaration} (h : SpellsRules refers ts ds) : ∀ d ∈ ds,
      refers d.name d.rule ∧ ∀ p ∈ d.phrases, ∃ us, Spells refers .choice us p := by
  induction h with
  | nil => simp
  | cons h _ ih =>
    refine List.forall_mem_cons.2 ⟨?_, ih⟩
    cases h with
    | rule hr hbody hl =>
      refine ⟨hr, List.forall_mem_cons.2 ⟨⟨_, hbody⟩, ?_⟩⟩
      cases hl with
      | nothing => simp
      | phrase hl => simpa using ⟨_, hl⟩

/-! ## Languages -/

mutual

/-- The byte strings of a phrase. -/
def Phrase.language (L : Reading) : Phrase → Language UInt8
  | .empty => 1
  | .literal text => {Utf8.ofString text}
  | .charClass set => set.language
  | .reference r => L r
  | .quantified body least most =>
    Language.copies (body.language L) least.toNat (most.map UInt32.toNat)
  | .sequence items => Phrase.sequenceLanguage L items
  | .choice items => Phrase.choiceLanguage L items

/-- The byte strings of phrases one after the other. -/
def Phrase.sequenceLanguage (L : Reading) : List Phrase → Language UInt8
  | [] => 1
  | p :: ps => p.language L * Phrase.sequenceLanguage L ps

/-- The byte strings of some one of several phrases. -/
def Phrase.choiceLanguage (L : Reading) : List Phrase → Language UInt8
  | [] => 0
  | p :: ps => p.language L + Phrase.choiceLanguage L ps

end

mutual

/-- A phrase describes more if the rules that it refers to do. -/
theorem Phrase.language_mono {L M : Reading} : ∀ p : Phrase,
    (∀ r, .reference r ∈ p.parts → L r ≤ M r) → p.language L ≤ p.language M
  | .empty, _ | .literal _, _ | .charClass _, _ => by simp [Phrase.language]
  | .reference r, h => by
    simp only [Phrase.language]
    exact h r (by simp [Phrase.parts])
  | .quantified body least most, h => by
    simp only [Phrase.language]
    exact Language.copies_mono (body.language_mono fun r hr => h r (by simp [Phrase.parts, hr])) _ _
  | .sequence items, h => by
    simp only [Phrase.language]
    exact Phrase.sequenceLanguage_mono items fun r hr => h r (by simp [Phrase.parts, hr])
  | .choice items, h => by
    simp only [Phrase.language]
    exact Phrase.choiceLanguage_mono items fun r hr => h r (by simp [Phrase.parts, hr])

theorem Phrase.sequenceLanguage_mono {L M : Reading} : ∀ ps : List Phrase,
    (∀ r, .reference r ∈ Phrase.partsOfAll ps → L r ≤ M r) →
      Phrase.sequenceLanguage L ps ≤ Phrase.sequenceLanguage M ps
  | [], _ => by simp [Phrase.sequenceLanguage]
  | p :: ps, h => by
    simp only [Phrase.sequenceLanguage]
    exact mul_le_mul' (p.language_mono fun r hr => h r (by simp [Phrase.partsOfAll, hr]))
      (Phrase.sequenceLanguage_mono ps fun r hr => h r (by simp [Phrase.partsOfAll, hr]))

theorem Phrase.choiceLanguage_mono {L M : Reading} : ∀ ps : List Phrase,
    (∀ r, .reference r ∈ Phrase.partsOfAll ps → L r ≤ M r) →
      Phrase.choiceLanguage L ps ≤ Phrase.choiceLanguage M ps
  | [], _ => by simp [Phrase.choiceLanguage]
  | p :: ps, h => by
    simp only [Phrase.choiceLanguage]
    exact add_le_add (p.language_mono fun r hr => h r (by simp [Phrase.partsOfAll, hr]))
      (Phrase.choiceLanguage_mono ps fun r hr => h r (by simp [Phrase.partsOfAll, hr]))

end

/-- What a phrase describes depends on the rules that it refers to alone. -/
theorem Phrase.language_congr {L M : Reading} (p : Phrase)
    (h : ∀ r, .reference r ∈ p.parts → L r = M r) : p.language L = p.language M :=
  le_antisymm (p.language_mono fun r hr => (h r hr).le) (p.language_mono fun r hr => (h r hr).ge)

/-- What the phrase of a declared rule describes, given what the rules describe. A lookahead
restricts nothing. -/
def bodyLanguage (ds : List Declaration) (L : Reading) (r : RuleId) : Language UInt8 :=
  match ds[r]? with
  | some d => d.body.language L
  | none => 0

theorem bodyLanguage_some {ds : List Declaration} {r : RuleId} {d : Declaration}
    (h : ds[r]? = some d) (L : Reading) : bodyLanguage ds L r = d.body.language L := by
  simp [bodyLanguage, h]

theorem bodyLanguage_mono (ds : List Declaration) : Monotone (bodyLanguage ds) := by
  intro L M h r
  cases hd : ds[r]? with
  | none => simp [bodyLanguage, hd]
  | some d =>
    simp only [bodyLanguage_some hd]
    exact d.body.language_mono fun r _ => h r

/-- What declared rules describe: the least reading with which their phrases agree. -/
def reading (ds : List Declaration) : Reading :=
  OrderHom.lfp ⟨bodyLanguage ds, bodyLanguage_mono ds⟩

/-- What a declared rule describes is what its phrase does. -/
theorem reading_of_phrase {ds : List Declaration} {r : RuleId} {d : Declaration}
    (h : ds[r]? = some d) : reading ds r = d.body.language (reading ds) := by
  rw [← bodyLanguage_some h]
  exact congrFun (OrderHom.map_lfp ⟨bodyLanguage ds, bodyLanguage_mono ds⟩).symm r

end ConstrainedDecoding.Ebnf
