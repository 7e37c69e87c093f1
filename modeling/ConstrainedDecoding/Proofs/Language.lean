import ConstrainedDecoding.Grammar.Basic
import Mathlib

/-!
# Languages of grammars

A tree describes a language of byte strings once it is said what each rule describes. What the rules
of a grammar describe is the least such reading that their bodies agree with.

Automata read words of letters, where a letter is a byte or the call of a rule. Expanding the calls
of such words by what the rules describe gives byte strings again.
-/
namespace ConstrainedDecoding

open Computability

/-- Languages are ordered by inclusion. This is found first, whatever else is known of their order. -/
instance (priority := high) Language.partialOrder {α : Type} : PartialOrder (Language α) :=
  CompleteLattice.toLattice.toSemilatticeInf.toPartialOrder

/-- What each rule is taken to describe. -/
abbrev Reading := RuleId → Language UInt8

/-- Between `least` and `most` copies, or at least `least` of them. -/
def Language.copies {α : Type} (K : Language α) (least : Nat) (most : Option Nat) : Language α :=
  {w | ∃ n, least ≤ n ∧ (∀ m ∈ most, n ≤ m) ∧ w ∈ K ^ n}

theorem Language.mem_copies {α : Type} {K : Language α} {least : Nat} {most : Option Nat}
    {w : List α} :
    w ∈ copies K least most ↔ ∃ n, least ≤ n ∧ (∀ m ∈ most, n ≤ m) ∧ w ∈ K ^ n := Iff.rfl

theorem Language.copies_mono {α : Type} {K K' : Language α} (h : K ≤ K') (least : Nat)
    (most : Option Nat) : copies K least most ≤ copies K' least most := by
  rintro w ⟨n, hl, hm, hw⟩
  exact ⟨n, hl, hm, pow_le_pow_left' h n hw⟩

theorem Language.copies_zero {α : Type} (K : Language α) : copies K 0 (some 0) = 1 := by
  ext w
  simp [mem_copies]

theorem Language.copies_succ {α : Type} (K : Language α) (k : Nat) :
    copies K 0 (some (k + 1)) = 1 + K * copies K 0 (some k) := by
  ext w
  rw [Language.mem_add, Language.mem_mul]
  simp only [mem_copies, Option.mem_some_iff, forall_eq', Nat.zero_le, true_and]
  constructor
  · rintro ⟨n, hn, hw⟩
    cases n with
    | zero => exact Or.inl (by simpa using hw)
    | succ n =>
      rw [pow_succ', Language.mem_mul] at hw
      obtain ⟨u, hu, v, hv, rfl⟩ := hw
      exact Or.inr ⟨u, hu, v, ⟨n, by omega, hv⟩, rfl⟩
  · rintro (hw | ⟨u, hu, v, ⟨n, hn, hv⟩, rfl⟩)
    · exact ⟨0, Nat.zero_le _, by simpa using hw⟩
    · exact ⟨n + 1, by omega, by rw [pow_succ']; exact Language.append_mem_mul hu hv⟩

theorem Language.pow_mul_copies {α : Type} (K : Language α) (least : Nat) (most : Option Nat)
    (h : ∀ m ∈ most, least ≤ m) :
    K ^ least * copies K 0 (most.map (· - least)) = copies K least most := by
  ext w
  rw [Language.mem_mul]
  constructor
  · rintro ⟨u, hu, v, ⟨n, -, hm, hv⟩, rfl⟩
    refine ⟨least + n, by omega, fun m hmost => ?_, by rw [pow_add]; exact Language.append_mem_mul hu hv⟩
    have := hm (m - least) (by simp [Option.mem_def.1 hmost])
    have := h m hmost
    omega
  · rintro ⟨n, hl, hm, hw⟩
    rw [← Nat.add_sub_cancel' hl, pow_add, Language.mem_mul] at hw
    obtain ⟨u, hu, v, hv, rfl⟩ := hw
    refine ⟨u, hu, v, ⟨n - least, Nat.zero_le _, fun m hmost => ?_, hv⟩, rfl⟩
    obtain ⟨m', hm', rfl⟩ := Option.mem_map.1 hmost
    exact Nat.sub_le_sub_right (hm m' hm') least

theorem Language.kstar_eq_copies {α : Type} (K : Language α) : K∗ = copies K 0 none := by
  ext w
  rw [Language.kstar_eq_iSup_pow, Language.mem_iSup, mem_copies]
  simp

theorem Language.mem_singleton_mul {α : Type} {u w : List α} {K : Language α} :
    w ∈ ({u} : Language α) * K ↔ ∃ v ∈ K, w = u ++ v := by
  rw [Language.mem_mul]
  constructor
  · rintro ⟨_, rfl, v, hv, rfl⟩
    exact ⟨v, hv, rfl⟩
  · rintro ⟨v, hv, rfl⟩
    exact ⟨u, rfl, v, hv, rfl⟩

/-! ## Characters -/

namespace CharClass

/-- A code point lies in a range of a class. -/
def Covers (set : CharClass) (n : Nat) : Prop :=
  ∃ r ∈ set.ranges, r.1.toNat ≤ n ∧ n ≤ r.2.toNat

/-- A class has a character: one of its ranges covers it, or none does if the class is negated. -/
def Has (set : CharClass) (c : Char) : Prop := set.Covers c.toNat ↔ set.negated = false

/-- The UTF-8 forms of the characters of a class. -/
def language (set : CharClass) : Language UInt8 :=
  {w | ∃ c, set.Has c ∧ w = String.utf8EncodeChar c}

theorem mem_language {set : CharClass} {w : Bytes} :
    w ∈ set.language ↔ ∃ c, set.Has c ∧ w = String.utf8EncodeChar c := Iff.rfl

end CharClass

/-! ## Trees -/

/-- The byte strings of a leaf. -/
def Leaf.language (L : Reading) : Leaf → Language UInt8
  | .empty => 1
  | .literal bytes => {bytes}
  | .charClass set => set.language
  | .charClassStar set => set.language∗
  | .reference r => L r
  | .repetition r least most => Language.copies (L r) least.toNat (most.map UInt32.toNat)

mutual

/-- The byte strings of a tree. -/
def Tree.language (L : Reading) : Tree → Language UInt8
  | .leaf l => l.language L
  | .sequence items => Tree.sequenceLanguage L items
  | .choice items => Tree.choiceLanguage L items

/-- The byte strings of trees one after the other. -/
def Tree.sequenceLanguage (L : Reading) : List Tree → Language UInt8
  | [] => 1
  | t :: ts => t.language L * Tree.sequenceLanguage L ts

/-- The byte strings of some one of several trees. -/
def Tree.choiceLanguage (L : Reading) : List Tree → Language UInt8
  | [] => 0
  | t :: ts => t.language L + Tree.choiceLanguage L ts

end

@[simp] theorem Tree.language_leaf (L : Reading) (l : Leaf) :
    (Tree.leaf l).language L = l.language L := by simp [Tree.language]

@[simp] theorem Tree.language_sequence (L : Reading) (ts : List Tree) :
    (Tree.sequence ts).language L = Tree.sequenceLanguage L ts := by simp [Tree.language]

@[simp] theorem Tree.language_choice (L : Reading) (ts : List Tree) :
    (Tree.choice ts).language L = Tree.choiceLanguage L ts := by simp [Tree.language]

@[simp] theorem Tree.sequenceLanguage_nil (L : Reading) : Tree.sequenceLanguage L [] = 1 := by
  simp [Tree.sequenceLanguage]

@[simp] theorem Tree.sequenceLanguage_cons (L : Reading) (t : Tree) (ts : List Tree) :
    Tree.sequenceLanguage L (t :: ts) = t.language L * Tree.sequenceLanguage L ts := by
  simp [Tree.sequenceLanguage]

@[simp] theorem Tree.choiceLanguage_nil (L : Reading) : Tree.choiceLanguage L [] = 0 := by
  simp [Tree.choiceLanguage]

@[simp] theorem Tree.choiceLanguage_cons (L : Reading) (t : Tree) (ts : List Tree) :
    Tree.choiceLanguage L (t :: ts) = t.language L + Tree.choiceLanguage L ts := by
  simp [Tree.choiceLanguage]

@[simp] theorem Tree.sequenceLanguage_append (L : Reading) (ts us : List Tree) :
    Tree.sequenceLanguage L (ts ++ us) =
      Tree.sequenceLanguage L ts * Tree.sequenceLanguage L us := by
  induction ts with
  | nil => simp
  | cons t ts ih => simp [ih, mul_assoc]

@[simp] theorem Tree.choiceLanguage_append (L : Reading) (ts us : List Tree) :
    Tree.choiceLanguage L (ts ++ us) = Tree.choiceLanguage L ts + Tree.choiceLanguage L us := by
  induction ts with
  | nil => simp only [List.nil_append, choiceLanguage_nil, zero_add]
  | cons t ts ih => simp only [List.cons_append, choiceLanguage_cons, ih, add_assoc]

/-- The language of a sequence is the product of the languages of its parts. -/
theorem Tree.sequenceLanguage_eq_prod (L : Reading) (ts : List Tree) :
    Tree.sequenceLanguage L ts = (ts.map (Tree.language L)).prod := by
  induction ts with
  | nil => simp
  | cons t ts ih => simp [ih]

theorem Tree.mem_choiceLanguage {L : Reading} {ts : List Tree} {w : Bytes} :
    w ∈ Tree.choiceLanguage L ts ↔ ∃ t ∈ ts, w ∈ t.language L := by
  induction ts with
  | nil =>
    rw [Tree.choiceLanguage_nil]
    exact iff_of_false (Language.notMem_zero w) (by simp)
  | cons t ts ih =>
    rw [Tree.choiceLanguage_cons, Language.mem_add, ih]
    simp

/-! ## Rules that occur -/

mutual

/-- A tree refers to a rule. -/
def Tree.Uses (r : RuleId) : Tree → Prop
  | .leaf l => l.rule? = some r
  | .sequence items | .choice items => Tree.UsesSome r items

/-- One of several trees refers to a rule. -/
def Tree.UsesSome (r : RuleId) : List Tree → Prop
  | [] => False
  | t :: ts => t.Uses r ∨ Tree.UsesSome r ts

end

theorem Tree.usesSome_iff {r : RuleId} {ts : List Tree} :
    Tree.UsesSome r ts ↔ ∃ t ∈ ts, t.Uses r := by
  induction ts with
  | nil => simp [Tree.UsesSome]
  | cons t ts ih => simp [Tree.UsesSome, ih]

theorem Leaf.language_mono {L M : Reading} (l : Leaf) (h : ∀ r, l.rule? = some r → L r ≤ M r) :
    l.language L ≤ l.language M := by
  cases l with
  | reference r => exact h r rfl
  | repetition r least most => exact Language.copies_mono (h r rfl) _ _
  | _ => exact le_rfl

mutual

/-- A tree describes more if the rules that it refers to do. -/
theorem Tree.language_mono {L M : Reading} :
    ∀ t : Tree, (∀ r, t.Uses r → L r ≤ M r) → t.language L ≤ t.language M
  | .leaf l, h => by
    simp only [Tree.language_leaf]
    exact l.language_mono (fun r hr => h r (by simpa [Tree.Uses] using hr))
  | .sequence ts, h => by
    simp only [Tree.language_sequence]
    exact Tree.sequenceLanguage_mono ts (fun r hr => h r (by simpa [Tree.Uses] using hr))
  | .choice ts, h => by
    simp only [Tree.language_choice]
    exact Tree.choiceLanguage_mono ts (fun r hr => h r (by simpa [Tree.Uses] using hr))

theorem Tree.sequenceLanguage_mono {L M : Reading} :
    ∀ ts : List Tree, (∀ r, Tree.UsesSome r ts → L r ≤ M r) →
      Tree.sequenceLanguage L ts ≤ Tree.sequenceLanguage M ts
  | [], _ => by simp
  | t :: ts, h => by
    simp only [Tree.sequenceLanguage_cons]
    exact mul_le_mul' (t.language_mono (fun r hr => h r (by simp [Tree.UsesSome, hr])))
      (Tree.sequenceLanguage_mono ts (fun r hr => h r (by simp [Tree.UsesSome, hr])))

theorem Tree.choiceLanguage_mono {L M : Reading} :
    ∀ ts : List Tree, (∀ r, Tree.UsesSome r ts → L r ≤ M r) →
      Tree.choiceLanguage L ts ≤ Tree.choiceLanguage M ts
  | [], _ => by simp
  | t :: ts, h => by
    simp only [Tree.choiceLanguage_cons]
    exact add_le_add (t.language_mono (fun r hr => h r (by simp [Tree.UsesSome, hr])))
      (Tree.choiceLanguage_mono ts (fun r hr => h r (by simp [Tree.UsesSome, hr])))

end

/-- What a tree describes depends on the rules that it refers to alone. -/
theorem Tree.language_congr {L M : Reading} (t : Tree) (h : ∀ r, t.Uses r → L r = M r) :
    t.language L = t.language M :=
  le_antisymm (t.language_mono fun r hr => (h r hr).le) (t.language_mono fun r hr => (h r hr).ge)

/-- A leaf refers to a rule below `rules`, and bounds of a repetition are in order. -/
def Leaf.Fits (rules : Nat) (l : Leaf) : Prop :=
  (∀ r ∈ l.rule?, r < rules) ∧
    ∀ r least most, l = .repetition r least (some most) → least ≤ most

mutual

/-- The leaves of a tree fit. -/
def Tree.Fits (rules : Nat) : Tree → Prop
  | .leaf l => l.Fits rules
  | .sequence items | .choice items => Tree.AllFit rules items

def Tree.AllFit (rules : Nat) : List Tree → Prop
  | [] => True
  | t :: ts => t.Fits rules ∧ Tree.AllFit rules ts

end

theorem Tree.allFit_iff {rules : Nat} {ts : List Tree} :
    Tree.AllFit rules ts ↔ ∀ t ∈ ts, t.Fits rules := by
  induction ts with
  | nil => simp [Tree.AllFit]
  | cons t ts ih => simp [Tree.AllFit, ih]

/-! ## Grammars -/

namespace Grammar

/-- The tree of the body of a rule. -/
def body (g : Grammar) (r : RuleId) : Option Tree := g.rules[r]?.map fun rule => g.tree rule.body

/-- What the body of a rule describes, given what the rules describe. -/
def bodyLanguage (g : Grammar) (L : Reading) (r : RuleId) : Language UInt8 :=
  match g.body r with
  | some t => t.language L
  | none => 0

theorem bodyLanguage_some {g : Grammar} {r : RuleId} {t : Tree} (h : g.body r = some t)
    (L : Reading) : g.bodyLanguage L r = t.language L := by simp [bodyLanguage, h]

theorem bodyLanguage_none {g : Grammar} {r : RuleId} (h : g.body r = none) (L : Reading) :
    g.bodyLanguage L r = 0 := by simp [bodyLanguage, h]

theorem bodyLanguage_mono (g : Grammar) : Monotone g.bodyLanguage := by
  intro L M h r
  cases hb : g.body r with
  | none => simp only [bodyLanguage_none hb, le_refl]
  | some t =>
    simp only [bodyLanguage_some hb]
    exact t.language_mono fun r _ => h r

/-- What the rules describe: the least reading with which their bodies agree. -/
def reading (g : Grammar) : Reading := OrderHom.lfp ⟨g.bodyLanguage, g.bodyLanguage_mono⟩

/-- The byte strings of the root rule. -/
def language (g : Grammar) : Language UInt8 := g.reading g.root

theorem reading_eq (g : Grammar) (r : RuleId) : g.reading r = g.bodyLanguage g.reading r :=
  congrFun (OrderHom.map_lfp ⟨g.bodyLanguage, g.bodyLanguage_mono⟩).symm r

theorem reading_of_body {g : Grammar} {r : RuleId} {t : Tree} (h : g.body r = some t) :
    g.reading r = t.language g.reading := by rw [reading_eq, bodyLanguage_some h]

/-- The reading of a grammar lies in every reading that contains what its bodies describe in it. -/
theorem reading_le {g : Grammar} {L : Reading}
    (h : ∀ r t, g.body r = some t → t.language L ≤ L r) : g.reading ≤ L := by
  apply OrderHom.lfp_le
  intro r
  change g.bodyLanguage L r ≤ L r
  cases hb : g.body r with
  | none =>
    rw [bodyLanguage_none hb]
    exact fun w hw => absurd hw (Language.notMem_zero w)
  | some t =>
    rw [bodyLanguage_some hb]
    exact h r t hb

/-- A property of readings holds of the reading of a grammar if the bodies keep it and unions do. -/
theorem reading_induction (g : Grammar) {p : Reading → Prop}
    (step : ∀ L, p L → p (g.bodyLanguage L)) (sup : ∀ S : Set Reading, (∀ L ∈ S, p L) → p (sSup S)) :
    p g.reading :=
  OrderHom.lfp_induction ⟨g.bodyLanguage, g.bodyLanguage_mono⟩ (fun L hL _ => step L hL) sup

/-- A reading agrees with the bodies of the rules from number `n` on. -/
def AgreesFrom (g : Grammar) (n : Nat) (L : Reading) : Prop :=
  ∀ r : Nat, n ≤ r → L r = g.bodyLanguage L r

theorem agreesFrom_reading (g : Grammar) (n : Nat) : g.AgreesFrom n g.reading :=
  fun r _ => g.reading_eq r

/-- What the first `n` rules describe is the least that fits a step on these rules alone, if their
bodies say what the step does wherever the rules after them are read as their bodies say. -/
theorem reading_eq_lfp {g : Grammar} {n : Nat} (F : Reading →o Reading)
    (hF : ∀ L M : Reading, (∀ r : Nat, r < n → L r = M r) → ∀ r : Nat, r < n → F L r = F M r)
    (h : ∀ L, g.AgreesFrom n L → ∀ r : Nat, r < n → g.bodyLanguage L r = F L r) :
    ∀ r : Nat, r < n → g.reading r = F.lfp r := by
  have le : ∀ r : Nat, r < n → F.lfp r ≤ g.reading r := by
    let M : Reading := fun r => if r < n then g.reading r else ⊤
    have hM : ∀ r : Nat, r < n → M r = g.reading r := fun r hr => if_pos hr
    have fits : F M ≤ M := by
      intro r
      rcases Nat.lt_or_ge r n with hr | hr
      · rw [hM r hr, hF M _ hM r hr, ← h _ (g.agreesFrom_reading n) r hr, ← reading_eq]
      · simp [M, Nat.not_lt.2 hr]
    intro r hr
    rw [← hM r hr]
    exact F.lfp_le fits r
  have ge : ∀ r : Nat, r < n → g.reading r ≤ F.lfp r := by
    -- the first rules keep the least reading of the step, and the others get the least that fits it
    let G : Reading →o Reading :=
      { toFun := fun L r => if r < n then F.lfp r else g.bodyLanguage L r
        monotone' := by
          intro L M hLM r
          by_cases hr : r < n
          · simp [hr]
          · simpa [hr] using g.bodyLanguage_mono hLM r }
    have first : ∀ r : Nat, r < n → G.lfp r = F.lfp r := by
      intro r hr
      rw [← G.map_lfp]
      exact if_pos hr
    have others : g.AgreesFrom n G.lfp := by
      intro r hr
      conv_lhs => rw [← G.map_lfp]
      exact if_neg (Nat.not_lt.2 hr)
    have fits : g.bodyLanguage G.lfp ≤ G.lfp := by
      intro r
      rcases Nat.lt_or_ge r n with hr | hr
      · rw [h _ others r hr, hF _ _ first r hr, F.map_lfp, first r hr]
      · exact (others r hr).ge
    intro r hr
    rw [← first r hr]
    exact reading_le (fun r t ht => by rw [← bodyLanguage_some ht]; exact fits r) r
  exact fun r hr => le_antisymm (ge r hr) (le r hr)

/-- What has to follow a rule: whether exactly that, and the byte strings. -/
def following (g : Grammar) (r : RuleId) : Option (Bool × Language UInt8) :=
  (g.rules[r]?.bind (·.lookahead)).map fun l => (l.isExact, (g.tree l.expr).language g.reading)

end Grammar

/-! ## Letters -/

/-- What an automaton reads at a time: a byte, or what a rule describes. -/
inductive Letter
  | byte (b : UInt8)
  | call (rule : RuleId)
  deriving DecidableEq

namespace Letter

/-- The byte strings of a letter. -/
def language (L : Reading) : Letter → Language UInt8
  | byte b => {[b]}
  | call r => L r

/-- The byte strings of a word. -/
def wordLanguage (L : Reading) (word : List Letter) : Language UInt8 :=
  (word.map (language L)).prod

@[simp] theorem wordLanguage_nil (L : Reading) : wordLanguage L [] = 1 := rfl

@[simp] theorem wordLanguage_cons (L : Reading) (a : Letter) (word : List Letter) :
    wordLanguage L (a :: word) = a.language L * wordLanguage L word := by simp [wordLanguage]

@[simp] theorem wordLanguage_append (L : Reading) (u v : List Letter) :
    wordLanguage L (u ++ v) = wordLanguage L u * wordLanguage L v := by simp [wordLanguage]

theorem wordLanguage_map_byte (L : Reading) (bytes : Bytes) :
    wordLanguage L (bytes.map byte) = {bytes} := by
  induction bytes with
  | nil => rfl
  | cons b bs ih =>
    ext w
    simp only [List.map_cons, wordLanguage_cons, ih, language, Language.mem_mul]
    constructor
    · rintro ⟨u, rfl, v, rfl, rfl⟩
      rfl
    · rintro rfl
      exact ⟨[b], rfl, bs, rfl, rfl⟩

theorem wordLanguage_mono {L M : Reading} (h : L ≤ M) (word : List Letter) :
    wordLanguage L word ≤ wordLanguage M word := by
  induction word with
  | nil => exact le_rfl
  | cons a word ih =>
    simp only [wordLanguage_cons]
    refine mul_le_mul' ?_ ih
    cases a with
    | byte b => exact le_rfl
    | call r => exact h r

/-- The byte strings of the words of a language. -/
def expand (L : Reading) : Language Letter →+* Language UInt8 where
  toFun K := {w | ∃ word ∈ K, w ∈ wordLanguage L word}
  map_zero' := by
    ext w
    constructor
    · rintro ⟨word, h, -⟩
      exact absurd h (Language.notMem_zero word)
    · exact fun h => absurd h (Language.notMem_zero w)
  map_one' := by
    ext w
    constructor
    · rintro ⟨word, rfl, hw⟩
      exact hw
    · exact fun h => ⟨[], rfl, h⟩
  map_add' K K' := by
    ext w
    constructor
    · rintro ⟨word, h | h, hw⟩
      · exact Or.inl ⟨word, h, hw⟩
      · exact Or.inr ⟨word, h, hw⟩
    · rintro (⟨word, h, hw⟩ | ⟨word, h, hw⟩)
      · exact ⟨word, Or.inl h, hw⟩
      · exact ⟨word, Or.inr h, hw⟩
  map_mul' K K' := by
    ext w
    constructor
    · rintro ⟨_, ⟨u, hu, v, hv, rfl⟩, hw⟩
      simp only [wordLanguage_append] at hw
      obtain ⟨x, hx, y, hy, rfl⟩ := hw
      exact ⟨x, ⟨u, hu, hx⟩, y, ⟨v, hv, hy⟩, rfl⟩
    · rintro ⟨x, ⟨u, hu, hx⟩, y, ⟨v, hv, hy⟩, rfl⟩
      refine ⟨u ++ v, ⟨u, hu, v, hv, rfl⟩, ?_⟩
      simp only [wordLanguage_append]
      exact ⟨x, hx, y, hy, rfl⟩

theorem expand_mono {L M : Reading} (h : L ≤ M) {K K' : Language Letter} (hK : K ≤ K') :
    expand L K ≤ expand M K' := by
  rintro w ⟨word, hword, hw⟩
  exact ⟨word, hK hword, wordLanguage_mono h word hw⟩

@[simp] theorem expand_singleton (L : Reading) (word : List Letter) :
    expand L {word} = wordLanguage L word := by
  ext w
  constructor
  · rintro ⟨_, rfl, hw⟩
    exact hw
  · exact fun hw => ⟨word, rfl, hw⟩

theorem expand_copies (L : Reading) (K : Language Letter) (least : Nat) (most : Option Nat) :
    expand L (Language.copies K least most) = Language.copies (expand L K) least most := by
  ext w
  constructor
  · rintro ⟨word, ⟨n, hl, hm, hword⟩, hw⟩
    exact ⟨n, hl, hm, map_pow (expand L) K n ▸ ⟨word, hword, hw⟩⟩
  · rintro ⟨n, hl, hm, hw⟩
    rw [← map_pow] at hw
    obtain ⟨word, hword, hw⟩ := hw
    exact ⟨word, ⟨n, hl, hm, hword⟩, hw⟩

theorem expand_kstar (L : Reading) (K : Language Letter) : expand L K∗ = (expand L K)∗ := by
  rw [Language.kstar_eq_copies, Language.kstar_eq_copies, expand_copies]

/-- A language of byte strings, as a language of words without calls. -/
def ofBytes (K : Language UInt8) : Language Letter := Language.map byte K

theorem mem_ofBytes {K : Language UInt8} {word : List Letter} :
    word ∈ ofBytes K ↔ ∃ bytes ∈ K, bytes.map byte = word := Iff.rfl

@[simp] theorem expand_ofBytes (L : Reading) (K : Language UInt8) : expand L (ofBytes K) = K := by
  ext w
  constructor
  · rintro ⟨_, ⟨bytes, hb, rfl⟩, hw⟩
    rw [wordLanguage_map_byte] at hw
    obtain rfl : w = bytes := hw
    exact hb
  · exact fun hw => ⟨w.map byte, ⟨w, hw, rfl⟩, by rw [wordLanguage_map_byte]; rfl⟩

end Letter

/-! ## Networks -/

/-- The words that each rule allows. -/
abbrev Network := RuleId → Language Letter

namespace Network

open Letter (expand)

/-- What the words of the rules describe, given what the rules describe. -/
def step (N : Network) : Reading →o Reading where
  toFun L r := expand L (N r)
  monotone' _ _ h _ := Letter.expand_mono h le_rfl

/-- What the rules describe: the least reading with which their words agree. -/
def reading (N : Network) : Reading := N.step.lfp

theorem reading_eq (N : Network) (r : RuleId) : N.reading r = expand N.reading (N r) :=
  congrFun N.step.map_lfp.symm r

theorem reading_le {N : Network} {L : Reading} (h : ∀ r, expand L (N r) ≤ L r) : N.reading ≤ L :=
  N.step.lfp_le h

end Network

end ConstrainedDecoding
