import ConstrainedDecoding.Proofs.Shapes

/-!
# How printed grammars are cut and spelled

A tree stands in the text of its grammar as a phrase: sequences and choices as groups, and all else
as it is. The text is cut into tokens that spell these phrases, one rule to a line.
-/
namespace ConstrainedDecoding

open Ebnf

/-! ## Phrases of trees -/

/-- The phrase as which a leaf is written. -/
def Leaf.phrase : Leaf → Phrase
  | .empty => .empty
  | .literal bytes => .literal (String.ofList ((Utf8.decode? bytes).getD []))
  | .charClass set => .charClass set
  | .charClassStar set => .quantified (.charClass set) 0 none
  | .reference r => .reference r
  | .repetition r least most => .quantified (.reference r) least most

mutual

/-- The phrase as which a tree is written. -/
def Tree.phrase : Tree → Phrase
  | .leaf l => l.phrase
  | .sequence ts => .choice [.sequence (Tree.phrases ts)]
  | .choice ts => .choice ((Tree.phrases ts).map fun p => .sequence [p])

/-- The phrases as which trees are written. -/
def Tree.phrases : List Tree → List Phrase
  | [] => []
  | t :: ts => t.phrase :: Tree.phrases ts

end

theorem Tree.phrases_eq (ts : List Tree) : Tree.phrases ts = ts.map Tree.phrase := by
  induction ts with
  | nil => rfl
  | cons t ts ih => rw [Tree.phrases, ih, List.map_cons]

theorem Tree.texts_eq (name : RuleId → String) (ts : List Tree) :
    Tree.texts name ts = ts.map (Tree.text name) := by
  induction ts with
  | nil => rfl
  | cons t ts ih => rw [Tree.texts, ih, List.map_cons]

/-- The right-hand side that only a tree stands in. -/
def Tree.alone (t : Tree) : Phrase := .choice [.sequence [t.phrase]]

namespace Grammar

/-- The declaration as which a rule is written. -/
def declaration (g : Grammar) (k : RuleId) (r : Rule) : Declaration :=
  ⟨r.name, k, (g.tree r.body).alone, r.lookahead.map fun l => (g.tree l.expr).alone⟩

/-- The declarations as which a grammar is written. -/
def declarations (g : Grammar) : List Declaration :=
  g.rules.toList.zipIdx.map fun x => g.declaration x.2 x.1

theorem names_declarations (g : Grammar) :
    g.declarations.map (·.name) = g.rules.toList.map (·.name) := by
  conv_rhs => rw [← List.zipIdx_map_fst 0 g.rules.toList, List.map_map]
  rw [declarations, List.map_map]
  rfl

theorem getElem?_declarations (g : Grammar) (k : Nat) :
    g.declarations[k]? = g.rules[k]?.map (g.declaration k) := by
  simp [declarations, Function.comp_def]

end Grammar

namespace Ebnf

/-! ## Pieces of one rule -/

/-- A piece of text does not make a lookahead of a parenthesis before it. -/
def Opens (s : String) : Prop := ∃ c cs, s.toList = c :: cs ∧ c ≠ '='

/-- What can follow a name or number. -/
abbrev ends (c : Char) : Prop := continuesName c = false

section

variable {refers : String → RuleId → Prop} {s t : String} {P Q : List Token → Prop} {stop : Char → Prop}

theorem Opens.append (h : Opens s) (t : String) : Opens (s ++ t) := by
  obtain ⟨c, cs, hs, hc⟩ := h
  exact ⟨c, cs ++ t.toList, by simp [hs], hc⟩

theorem IsName.opens (h : IsName s) : Opens s := by
  obtain ⟨c, cs, hs, hc, -⟩ := h
  refine ⟨c, cs, hs, ?_⟩
  rintro rfl
  exact absurd hc (by decide)

theorem follows_ends {c : Char} {cs : List Char} (hs : s.toList = c :: cs) (hc : ends c) (rest : List Char) :
    Follows ends (s.toList ++ rest) := by
  rw [hs]
  rintro d ⟨⟩
  exact hc

/-- A piece and a sign after it, if the sign can follow the piece. -/
theorem Cuts.concat {us vs : List Token} {stop' : Char → Prop} (h : Cuts s stop (· = us)) (h' : Cuts t stop' (· = vs))
    (hfollows : ∀ rest, Follows stop' rest → Follows stop (t.toList ++ rest)) :
    Cuts (s ++ t) stop' (· = us ++ vs) :=
  h.append h' hfollows (by rintro _ _ rfl rfl; rfl)

theorem cuts_rightParen : Cuts ")" anything (· = [.rightParen]) :=
  cuts_punctuation rfl (by decide) rfl (by decide)

theorem cuts_group (hs : Opens s) (h : Cuts s ends P)
    (hQ : ∀ us, P us → Q (.leftParen :: (us ++ [.rightParen]))) :
    Cuts ("(" ++ s ++ ")") anything Q := by
  obtain ⟨c, cs, hc, hne⟩ := hs
  have inner : Cuts ("(" ++ s) ends fun us => ∃ vs, us = .leftParen :: vs ∧ P vs :=
    cuts_leftParen.append h (fun rest _ => by rw [hc]; rintro d ⟨⟩; exact hne)
      (by rintro _ vs rfl hvs; exact ⟨vs, rfl, hvs⟩)
  refine inner.append cuts_rightParen (fun rest _ => follows_ends rfl (by decide) rest) ?_
  rintro _ _ ⟨vs, rfl, hvs⟩ rfl
  exact hQ vs hvs

/-- Pieces with a separator between them. -/
theorem cuts_intercalate {α : Type} {sep : String} {text : α → String} {R : α → List Token → Prop}
    {S : List α → List Token → Prop} {us : List Token}
    (hsep : Cuts sep anything (· = us)) (hends : ∀ rest, Follows ends (sep.toList ++ rest))
    (one : ∀ x ts, R x ts → S [x] ts)
    (more : ∀ x xs ts vs, R x ts → S xs vs → S (x :: xs) (ts ++ us ++ vs)) :
    ∀ items : List α, items ≠ [] → (∀ x ∈ items, Cuts (text x) ends (R x)) →
      Cuts (sep.intercalate (items.map text)) ends (S items) := by
  intro items
  induction items with
  | nil => exact fun h => absurd rfl h
  | cons x items ih =>
    intro _ hall
    obtain ⟨hx, hitems⟩ := List.forall_mem_cons.1 hall
    cases items with
    | nil => exact hx.imp fun ts => one x ts
    | cons y items =>
      rw [List.map_cons, List.map_cons, String.intercalate_cons_cons]
      have first : Cuts (text x ++ sep) anything fun ts => ∃ vs, ts = vs ++ us ∧ R x vs :=
        hx.append hsep (fun rest _ => hends rest) (by rintro vs _ hvs rfl; exact ⟨vs, rfl, hvs⟩)
      refine first.append (ih (by simp) hitems) (fun rest _ => follows_anything _) ?_
      rintro _ ws ⟨vs, rfl, hvs⟩ hws
      exact more x _ vs ws hvs hws

theorem opens_intercalate {α : Type} {sep : String} {text : α → String} {items : List α} (hne : items ≠ [])
    (h : ∀ x ∈ items, Opens (text x)) : Opens (sep.intercalate (items.map text)) := by
  match items with
  | [x] => simpa using h x
  | x :: y :: items =>
    rw [List.map_cons, List.map_cons, String.intercalate_cons_cons]
    exact ((h x List.mem_cons_self).append _).append _

end

/-! ## Trees -/

section

variable {refers : String → RuleId → Prop} {n : Nat} {name : RuleId → String}

/-- The rules before number `n` have names that refer to them and can be read. -/
def Naming (refers : String → RuleId → Prop) (n : Nat) (name : RuleId → String) : Prop :=
  ∀ r : Nat, r < n → IsName (name r) ∧ refers (name r) r

theorem opens_leaf (hnaming : Naming refers n name) {l : Leaf} (hfits : l.Fits n) : Opens (l.text name) := by
  have named {r : Nat} (hr : l.rule? = some r) : Opens (name r) := (hnaming r (hfits.1 r hr)).1.opens
  cases l with
  | empty => exact (show Opens "\"\"" from ⟨'"', ['"'], rfl, by decide⟩)
  | literal bytes => exact ((show Opens "\"" from ⟨'"', [], rfl, by decide⟩).append _).append _
  | charClass set => exact (((show Opens "[" from ⟨'[', [], rfl, by decide⟩).append _).append _).append _
  | charClassStar set =>
    exact ((((show Opens "[" from ⟨'[', [], rfl, by decide⟩).append _).append _).append _).append _
  | reference r => exact named rfl
  | repetition r least most =>
    have := named (r := r) rfl
    cases most with
    | none => exact ((this.append _).append _).append _
    | some m => exact ((((this.append _).append _).append _).append _).append _

theorem cuts_star : Cuts "*" anything (· = [.star]) :=
  cuts_punctuation rfl (by decide) rfl (by decide)

theorem cuts_leftBrace : Cuts "\x7b" anything (· = [.leftBrace]) :=
  cuts_punctuation rfl (by decide) rfl (by decide)

theorem cuts_rightBrace : Cuts "\x7d" anything (· = [.rightBrace]) :=
  cuts_punctuation rfl (by decide) rfl (by decide)

theorem cuts_comma : Cuts "," anything (· = [.comma]) :=
  cuts_punctuation rfl (by decide) rfl (by decide)

theorem cuts_openEnd : Cuts ",\x7d" anything (· = [.comma, .rightBrace]) :=
  cuts_comma.concat cuts_rightBrace fun _ _ => follows_anything _

theorem cuts_bound (n : UInt32) : Cuts (toString n.toNat) ends (· = [.integer n.toNat]) := by
  have := n.toNat_lt
  refine fun p rest hrest => cuts_integer (by rw [greatestInteger]; omega) p rest fun c hc => ?_
  have := hrest c hc
  simp only [ends, continuesName, Bool.or_eq_false_iff] at this
  exact this.2

theorem cuts_leaf (hnaming : Naming refers n name) {l : Leaf} (hfits : l.Fits n) (hl : l.Written) :
    Cuts (l.text name) ends (Spells refers .item · l.phrase) := by
  have named {r : Nat} (hr : l.rule? = some r) : Cuts (name r) ends (· = [.identifier (name r)]) :=
    cuts_name (hnaming r (hfits.1 r hr)).1
  have identifier {r : Nat} (hr : l.rule? = some r) :
      Spells refers .element [.identifier (name r)] (.reference r) :=
    .identifier (hnaming r (hfits.1 r hr)).2
  cases l with
  | empty =>
    have text : Grammar.literalText (Utf8.ofString "") = "\"\"" := String.toList_inj.1 (toList_literalText "")
    refine (text ▸ cuts_literal (s := "")).of_anything.imp ?_
    rintro _ rfl
    exact .plain .emptyLiteral
  | literal bytes =>
    obtain ⟨s, hs, rfl⟩ := hl
    refine cuts_literal.of_anything.imp ?_
    rintro _ rfl
    rw [Leaf.phrase, Utf8.ofString, Utf8.decode?_encode, Option.getD_some, String.ofList_toList]
    exact .plain (.literal hs)
  | charClass set =>
    refine (cuts_class hl).of_anything.imp ?_
    rintro _ ⟨members, close, rfl, hranges⟩
    exact .plain (.charClass hranges)
  | charClassStar set =>
    refine ((cuts_class hl).append cuts_star (fun _ _ => follows_anything _) ?_).of_anything
    rintro _ _ ⟨members, close, rfl, hranges⟩ rfl
    exact .quantified (.charClass hranges) .star
  | reference r =>
    refine (named rfl).imp ?_
    rintro _ rfl
    exact .plain (identifier rfl)
  | repetition r least most =>
    have opened := ((named rfl).concat cuts_leftBrace fun _ _ => follows_ends rfl (by decide) _).concat
      (cuts_bound least) fun _ _ => follows_anything _
    cases most with
    | none =>
      refine (opened.concat cuts_openEnd fun _ _ => follows_ends rfl (by decide) _).of_anything.imp ?_
      rintro _ rfl
      have := Spells.quantified (identifier rfl) (Bounds.atLeast (n := least))
      simpa [Leaf.phrase] using this
    | some most =>
      have more := (opened.concat cuts_comma fun _ _ => follows_ends rfl (by decide) _).concat
        (cuts_bound most) fun _ _ => follows_anything _
      refine (more.concat cuts_rightBrace fun _ _ => follows_ends rfl (by decide) _).of_anything.imp ?_
      rintro _ rfl
      have := Spells.quantified (identifier rfl) (Bounds.between (hfits.2 _ _ _ rfl))
      simpa [Leaf.phrase] using this

theorem cuts_bar : Cuts " | " anything (· = [.pipe]) := by
  have bar : Cuts "|" anything (· = [.pipe]) := cuts_punctuation rfl (by decide) rfl (by decide)
  exact (cuts_blank.concat bar fun _ _ => follows_anything _).concat cuts_blank fun _ _ => follows_anything _

/-- Items with blanks between them spell a sequence. -/
theorem cuts_sequence {ts : List Tree} (hne : ts ≠ [])
    (h : ∀ t ∈ ts, Cuts (t.text name) ends (Spells refers .item · t.phrase)) :
    Cuts (" ".intercalate (ts.map (Tree.text name))) ends
      (Spells refers .sequence · (.sequence (ts.map Tree.phrase))) := by
  refine cuts_intercalate (S := fun ts us => Spells refers .sequence us (.sequence (ts.map Tree.phrase)))
    cuts_blank (fun rest => follows_ends rfl (by decide) rest) (fun _ _ => .last) ?_ ts hne h
  intro t ts us vs hp hps
  rw [List.append_nil]
  exact .further hp hps

/-- Items with bars between them spell a choice. -/
theorem cuts_choice {ts : List Tree} (hne : ts ≠ [])
    (h : ∀ t ∈ ts, Cuts (t.text name) ends (Spells refers .item · t.phrase)) :
    Cuts (" | ".intercalate (ts.map (Tree.text name))) ends
      (Spells refers .choice · (.choice (ts.map fun t => .sequence [t.phrase]))) := by
  refine cuts_intercalate
    (S := fun ts us => Spells refers .choice us (.choice (ts.map fun t => .sequence [t.phrase])))
    cuts_bar (fun rest => follows_ends rfl (by decide) rest) (fun _ _ => .only) ?_ ts hne
    fun t ht => (h t ht).imp fun _ => .last
  intro t ts us vs hp hps
  rw [List.append_assoc]
  exact .bar hp hps

/-- A flat tree is cut into tokens that spell its phrase. -/
theorem cuts_tree (hnaming : Naming refers n name) {role : Role} {t : Tree} (h : t.Flat role) :
    t.Fits n → Opens (t.text name) ∧ Cuts (t.text name) ends (Spells refers .item · t.phrase) := by
  have parts {ts : List Tree} (hall : ∀ t ∈ ts, t.Fits n → Opens (t.text name) ∧
      Cuts (t.text name) ends (Spells refers .item · t.phrase)) (hfits : Tree.AllFit n ts) :
      (∀ t ∈ ts, Opens (t.text name)) ∧
        ∀ t ∈ ts, Cuts (t.text name) ends (Spells refers .item · t.phrase) :=
    ⟨fun t ht => (hall t ht (Tree.allFit_iff.1 hfits t ht)).1,
      fun t ht => (hall t ht (Tree.allFit_iff.1 hfits t ht)).2⟩
  have opens (s : String) : Opens ("(" ++ s ++ ")") :=
    ((show Opens "(" from ⟨'(', [], rfl, by decide⟩).append _).append _
  induction h with
  | leaf hl => exact fun hfits => ⟨opens_leaf hnaming hfits, cuts_leaf hnaming hfits hl⟩
  | group _ _ ih => exact ih
  | sequence hne _ _ ih =>
    intro hfits
    obtain ⟨hopens, hcuts⟩ := parts ih hfits
    rw [Tree.text, Tree.phrase, Tree.texts_eq, Tree.phrases_eq]
    exact ⟨opens _, (cuts_group (opens_intercalate hne hopens) (cuts_sequence hne hcuts)
      fun _ h => .plain (.group (.only h))).of_anything⟩
  | choice hne _ ih =>
    intro hfits
    obtain ⟨hopens, hcuts⟩ := parts ih hfits
    rw [Tree.text, Tree.phrase, Tree.texts_eq, Tree.phrases_eq, List.map_map]
    exact ⟨opens _, (cuts_group (opens_intercalate hne hopens) (cuts_choice hne hcuts)
      fun _ h => .plain (.group h)).of_anything⟩

/-! ## Lines -/

/-- Tokens spell the declaration of a rule, but for its name, which is not yet told from others. -/
def SpellsUntitled (refers : String → RuleId → Prop) (ts : List Token) (d : Declaration) : Prop :=
  ∃ us, ts = .identifier d.name :: .assign :: us ∧
    SpellsRule refers (.ruleName d.name :: .assign :: us) d

end

section

variable {g : Grammar} {refers : String → RuleId → Prop}

theorem cuts_alone {name : RuleId → String} {n : Nat} (hnaming : Naming refers n name) {t : Tree}
    (h : t.Flat .choice) (hfits : t.Fits n) :
    Cuts (t.text name) ends (Spells refers .choice · t.alone) :=
  (cuts_tree hnaming h hfits).2.imp fun _ h => .only (.last h)

theorem cuts_title {s : String} (h : IsName s) :
    Cuts (s ++ " ::= ") anything (· = [.identifier s, .assign]) := by
  have sign : Cuts " ::= " anything (· = [.assign]) :=
    (cuts_blank.concat cuts_assign fun _ _ => follows_anything _).concat cuts_blank
      fun _ _ => follows_anything _
  exact (cuts_name h).concat sign fun _ _ => follows_ends rfl (by decide) _

theorem cuts_lookahead {s : String} {p : Phrase} (h : Cuts s ends (Spells refers .choice · p)) :
    Cuts (" (= " ++ s ++ ")") anything (SpellsLookahead refers · (some p)) := by
  have sign : Cuts " (= " anything (· = [.leftLookahead]) :=
    (cuts_blank.concat cuts_leftLookahead fun _ _ => follows_anything _).concat cuts_blank
      fun _ _ => follows_anything _
  have opened : Cuts (" (= " ++ s) ends fun us => ∃ vs, us = .leftLookahead :: vs ∧ Spells refers .choice vs p :=
    sign.append h (fun _ _ => follows_anything _) (by rintro _ vs rfl hvs; exact ⟨vs, rfl, hvs⟩)
  refine opened.append cuts_rightParen (fun rest _ => follows_ends rfl (by decide) rest) ?_
  rintro _ _ ⟨vs, rfl, hvs⟩ rfl
  exact .phrase hvs

/-- A line is cut into tokens that spell the declaration of its rule. -/
theorem cuts_rule (hnaming : Naming refers g.rules.size g.ruleName) (hg : g.Valid) {k : RuleId} {r : Rule}
    (hr : r.Printable g) (hrefers : refers r.name k) :
    Cuts (g.ruleText g.tree r) ends (SpellsUntitled refers · (g.declaration k r)) := by
  have body := cuts_alone hnaming hr.body (hg.fits r.body)
  have start : Cuts (r.name ++ " ::= " ++ (g.tree r.body).text g.ruleName) ends fun ts =>
      ∃ us, ts = .identifier r.name :: .assign :: us ∧ Spells refers .choice us (g.tree r.body).alone :=
    (cuts_title hr.named).append body (fun _ _ => follows_anything _)
      (by rintro _ us rfl hus; exact ⟨us, rfl, hus⟩)
  unfold Grammar.ruleText Grammar.declaration
  cases hl : r.lookahead with
  | none =>
    simp only [String.append_empty]
    refine start.imp ?_
    rintro _ ⟨us, rfl, hus⟩
    refine ⟨us, rfl, ?_⟩
    have := SpellsRule.rule hrefers hus .nothing
    rwa [List.append_nil] at this
  | some l =>
    have after := cuts_lookahead (cuts_alone hnaming (hr.lookahead l hl).2 (hg.fits l.expr))
    refine (start.append after (fun rest _ => ?_) ?_).of_anything
    · rw [String.toList_append, String.toList_append, List.append_assoc, List.append_assoc]
      exact follows_ends rfl (by decide) _
    · rintro _ vs ⟨us, rfl, hus⟩ hvs
      exact ⟨us ++ vs, rfl, .rule hrefers hus hvs⟩

/-! ## Whole texts -/

/-- The first token is `::=`. -/
def startsAssign : List (Located Token) → Bool
  | ⟨_, .assign⟩ :: _ => true
  | _ => false

theorem nameRules_cons {before : Option (Located Token)} {t : Located Token} {rest : List (Located Token)}
    (h : startsAssign rest = false) :
    nameRules before (t :: rest) = (nameRules (some t) rest).map (t :: ·) := by
  rw [nameRules.eq_def]
  dsimp only
  split
  · simp [startsAssign] at h
  · rfl

theorem startsAssign_append {us rest : List (Located Token)} (hus : Inner (values us))
    (hrest : startsAssign rest = false) : startsAssign (us ++ rest) = false := by
  match us with
  | [] => exact hrest
  | ⟨p, t⟩ :: us =>
    obtain ⟨⟨-, -, ht⟩, -⟩ := List.forall_mem_cons.1 hus
    cases t <;> first | rfl | exact absurd rfl ht

theorem nameRules_append {us rest : List (Located Token)} (hus : Inner (values us))
    (hrest : startsAssign rest = false) : ∀ before,
      nameRules before (us ++ rest) = (nameRules (us.getLast?.or before) rest).map (us ++ ·) := by
  induction us with
  | nil =>
    intro before
    simp only [List.nil_append, List.getLast?_nil, Option.none_or]
    cases nameRules before rest <;> rfl
  | cons u us ih =>
    intro before
    have hus : Inner (values us) := (List.forall_mem_cons.1 hus).2
    have last : (u :: us).getLast?.or before = us.getLast?.or (some u) := by
      rw [List.getLast?_cons]
      cases us.getLast? <;> rfl
    rw [List.cons_append, nameRules_cons (startsAssign_append hus hrest), ih hus, last]
    cases nameRules (us.getLast?.or (some u)) rest <;> rfl

theorem SpellsRule.inner {us : List Token} {name : String} {d : Declaration}
    (h : SpellsRule refers (.ruleName name :: .assign :: us) d) : Inner us := by
  cases h with
  | rule _ hbody hl => exact inner_append.2 ⟨hbody.inner, hl.inner⟩

/-- The name of a rule is told from identifiers if it is the first token on its line. -/
theorem nameRules_line {raw : List (Located Token)} {d : Declaration} {line : Nat}
    (h : SpellsUntitled refers (values raw) d) (hline : ∀ u ∈ raw, u.position.line = line)
    {before : Option (Located Token)} (hbefore : ∀ b ∈ before, b.position.line ≠ line) :
    ∃ ts last, SpellsRule refers (values ts) d ∧ (∀ b ∈ last, b.position.line = line) ∧
      ∀ rest, startsAssign rest = false → startsAssign (raw ++ rest) = false ∧
        nameRules before (raw ++ rest) = (nameRules last rest).map (ts ++ ·) := by
  obtain ⟨us, hraw, hspells⟩ := h
  obtain ⟨p, _, rfl, htail⟩ := values_eq_cons.1 hraw
  obtain ⟨q, vs, rfl, rfl⟩ := values_eq_cons.1 htail
  obtain ⟨hp, hq, hvs⟩ : p.line = line ∧ q.line = line ∧ ∀ v ∈ vs, v.position.line = line := by
    simpa using hline
  have first : before.any (fun b => decide (b.position.line = p.line)) = false := by
    cases before with
    | none => rfl
    | some b => simpa [hp] using hbefore b rfl
  have inner : Inner (values vs) := hspells.inner
  refine ⟨⟨p, .ruleName d.name⟩ :: ⟨q, .assign⟩ :: vs, vs.getLast?.or (some ⟨q, .assign⟩), hspells,
    fun b hb => ?_, fun rest hrest => ⟨rfl, ?_⟩⟩
  · cases hlast : vs.getLast? with
    | none =>
      obtain rfl : ⟨q, .assign⟩ = b := by simpa [hlast] using hb
      exact hq
    | some v =>
      obtain rfl : v = b := by simpa [hlast] using hb
      exact hvs v (List.mem_of_getLast? hlast)
  · rw [List.cons_append, List.cons_append, nameRules.eq_def]
    simp only [first, Bool.false_eq_true, if_false]
    rw [nameRules_cons (startsAssign_append inner hrest), nameRules_append inner hrest]
    cases nameRules (vs.getLast?.or (some ⟨q, .assign⟩)) rest <;> rfl

/-- A text is cut into tokens that spell declarations, with the token before it on another line. -/
def Lines (refers : String → RuleId → Prop) (p : Position) (cs : List Char)
    (before : Option (Located Token)) (ds : List Declaration) : Prop :=
  ∃ raw ts us, tokensFrom p cs = .ok raw ∧ startsAssign raw = false ∧ nameRules before raw = .ok ts ∧
    values ts = us ++ [.endOfFile] ∧ SpellsRules refers us ds

theorem lines_nil (p : Position) (before : Option (Located Token)) : Lines refers p [] before [] := by
  refine ⟨[⟨p, .endOfFile⟩], [⟨p, .endOfFile⟩], [], ?_, rfl, rfl, rfl, .nil⟩
  rw [tokensFrom_eq]
  rfl

/-- A line of its own, before further lines. -/
theorem Lines.exists_cons {D : Declaration → Prop} {E : List Declaration → Prop} {s : String} {p : Position}
    {cs : List Char} {before : Option (Located Token)}
    (hcut : Cuts s ends fun ts => ∃ d, D d ∧ SpellsUntitled refers ts d)
    (hfollows : Follows ends cs) (hbefore : ∀ b ∈ before, b.position.line ≠ p.line)
    (h : ∀ (q : Position) last, q.line = p.line → (∀ b ∈ last, b.position.line = p.line) →
      ∃ ds, E ds ∧ Lines refers q cs last ds) :
    ∃ d ds, D d ∧ E ds ∧ Lines refers p (s.toList ++ cs) before (d :: ds) := by
  obtain ⟨raw, q, ⟨d, hd, hraw⟩, hq, hline, hcut⟩ := hcut p cs hfollows
  obtain ⟨ts, last, hts, hlast, hname⟩ := nameRules_line hraw hline hbefore
  obtain ⟨ds, hds, raw', ts', us, hraw', hstart, hts', hus, hspells⟩ := h q last hq hlast
  obtain ⟨hstart', hname⟩ := hname raw' hstart
  refine ⟨d, ds, hd, hds, raw ++ raw', ts ++ ts', values ts ++ us, ?_, hstart', ?_, ?_, .cons hts hspells⟩
  · rw [hcut, hraw']
    rfl
  · rw [hname, hts']
    rfl
  · rw [values, List.map_append, List.append_assoc, ← hus]

theorem Lines.cons {s : String} {d : Declaration} {ds : List Declaration} {p : Position} {cs : List Char}
    {before : Option (Located Token)} (hcut : Cuts s ends (SpellsUntitled refers · d))
    (hfollows : Follows ends cs) (hbefore : ∀ b ∈ before, b.position.line ≠ p.line)
    (h : ∀ (q : Position) last, q.line = p.line → (∀ b ∈ last, b.position.line = p.line) →
      Lines refers q cs last ds) : Lines refers p (s.toList ++ cs) before (d :: ds) := by
  obtain ⟨_, _, rfl, rfl, hlines⟩ := Lines.exists_cons (D := (· = d)) (E := (· = ds))
    (hcut.imp fun _ hts => ⟨d, rfl, hts⟩) hfollows hbefore fun q last hq hlast => ⟨ds, rfl, h q last hq hlast⟩
  exact hlines

theorem tokensFrom_newline (p : Position) (cs : List Char) :
    tokensFrom p ('\n' :: cs) = tokensFrom ⟨p.line + 1, 1⟩ cs :=
  tokensFrom_of_skipBlanks (by simp [skipBlanks, Position.after])

theorem lines_newline {p : Position} {cs : List Char} {before : Option (Located Token)}
    {ds : List Declaration} :
    Lines refers p ('\n' :: cs) before ds ↔ Lines refers ⟨p.line + 1, 1⟩ cs before ds := by
  rw [Lines, tokensFrom_newline, Lines]

/-- Further lines. -/
theorem lines_flatMap {α : Type} {line : α → String} {declaration : α → Declaration} {rs : List α}
    (h : ∀ r ∈ rs, Cuts (line r) ends (SpellsUntitled refers · (declaration r))) :
    ∀ (p : Position) (before : Option (Located Token)), (∀ b ∈ before, b.position.line ≤ p.line) →
      Lines refers p (rs.flatMap fun r => '\n' :: (line r).toList) before (rs.map declaration) := by
  induction rs with
  | nil => exact fun p before _ => lines_nil p before
  | cons r rs ih =>
    intro p before hbefore
    obtain ⟨hr, hrs⟩ := List.forall_mem_cons.1 h
    have next : Lines refers ⟨p.line + 1, 1⟩
        ((line r).toList ++ rs.flatMap fun r => '\n' :: (line r).toList) before
        (declaration r :: rs.map declaration) := by
      refine .cons hr ?_ (fun b hb => Nat.ne_of_lt (Nat.lt_succ_of_le (hbefore b hb)))
        fun q last hq hlast => ih hrs q last fun b hb => by rw [hlast b hb, hq]
      cases rs with
      | nil => exact nofun
      | cons _ _ =>
        rintro c ⟨⟩
        decide
    rw [List.flatMap_cons, List.cons_append]
    exact lines_newline.2 next

theorem toList_intercalate_cons {sep s : String} {ss : List String} :
    (sep.intercalate (s :: ss)).toList = s.toList ++ ss.flatMap fun t => sep.toList ++ t.toList := by
  induction ss generalizing s with
  | nil => simp
  | cons t ss ih => rw [String.intercalate_cons_cons, String.toList_append, String.toList_append, ih]; simp

theorem tokens_of_lines {text : String} {ds : List Declaration}
    (h : Lines refers .start text.toList none ds) :
    ∃ ts us, tokens text = .ok ts ∧ values ts = us ++ [.endOfFile] ∧ SpellsRules refers us ds := by
  obtain ⟨raw, ts, us, hraw, hstart, hts, hus, hspells⟩ := h
  refine ⟨ts, us, ?_, hus, hspells⟩
  rw [tokens, Except.bind_eq_ok]
  refine ⟨raw, hraw, ?_⟩
  split
  · simp [startsAssign] at hstart
  · exact hts

/-- The text of a grammar is cut into tokens that spell its rules. -/
theorem exists_tokens_text (hg : g.Printable) (hnaming : Naming refers g.rules.size g.ruleName)
    (hrefers : ∀ (k : Nat) (r : Rule), g.rules[k]? = some r → refers r.name k) :
    ∃ ts us, tokens g.text = .ok ts ∧ values ts = us ++ [.endOfFile] ∧
      SpellsRules refers us g.declarations := by
  have cut : ∀ x ∈ g.rules.toList.zipIdx, Cuts (g.ruleText g.tree x.1) ends
      (SpellsUntitled refers · (g.declaration x.2 x.1)) := by
    rintro ⟨r, k⟩ hx
    have hk : g.rules[k]? = some r := by simpa [List.mk_mem_zipIdx_iff_getElem?] using hx
    exact cuts_rule hnaming hg.valid (hg.rules r (Array.mem_of_getElem? hk)) (hrefers k r hk)
  have text : g.text = "\n".intercalate (g.rules.toList.zipIdx.map fun x => g.ruleText g.tree x.1) := by
    conv_lhs => rw [Grammar.text, ← List.zipIdx_map_fst 0 g.rules.toList, List.map_map]
    rfl
  have nonempty : g.rules.toList.zipIdx ≠ [] := by
    have := hg.valid.root_lt
    intro h
    simp_all
  rw [text, Grammar.declarations]
  generalize g.rules.toList.zipIdx = xs at cut nonempty
  match xs with
  | x :: xs =>
    obtain ⟨hx, hxs⟩ := List.forall_mem_cons.1 cut
    refine tokens_of_lines ?_
    rw [List.map_cons, toList_intercalate_cons, List.flatMap_map]
    refine .cons hx ?_ nofun fun q last hq hlast => lines_flatMap hxs q last fun b hb => by rw [hlast b hb, hq]
    cases xs with
    | nil => exact nofun
    | cons _ _ =>
      rintro c ⟨⟩
      decide

end

end Ebnf

end ConstrainedDecoding
