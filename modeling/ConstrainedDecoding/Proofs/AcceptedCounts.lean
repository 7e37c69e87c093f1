import ConstrainedDecoding.Proofs.Productions

/-!
# Counts in texts that are accepted

A count that is too great is not cut, or it is not taken for a bound. So if a text with the lines of
productions is accepted, then the counts in it can all be read.
-/
namespace ConstrainedDecoding.Ebnf

/-! ## Numbers in tokens -/

/-- The numbers in tokens can be bounds. -/
def SmallNumbers (ts : List Token) : Prop := ∀ n, .integer n ∈ ts → n ≤ Quantifier.limit

section

variable {refers : String → RuleId → Prop}

theorem toNat_le_limit (n : UInt32) : n.toNat ≤ Quantifier.limit := Nat.le_of_lt_succ n.toNat_lt

theorem Bounds.smallNumbers {ts : List Token} {least : UInt32} {most : Option UInt32} (h : Bounds ts least most) :
    SmallNumbers ts := by
  intro n hn
  cases h with
  | star | plus | question => simp at hn
  | exactly | atLeast =>
    obtain rfl : n = _ := by simpa using hn
    exact toNat_le_limit _
  | between =>
    obtain rfl | rfl : n = _ ∨ n = _ := by simpa using hn
    · exact toNat_le_limit _
    · exact toNat_le_limit _

theorem Spells.smallNumbers {role : Role} {ts : List Token} {p : Phrase} (h : Spells refers role ts p) :
    SmallNumbers ts := by
  intro n
  induction h with
  | unit | emptyLiteral | literal | charClass | identifier => simp
  | group _ ih => simpa using ih
  | plain _ ih | last _ ih | only _ ih => exact ih
  | quantified _ hbounds ih => exact fun hn => (List.mem_append.1 hn).elim ih (hbounds.smallNumbers n)
  | further _ _ ih ih' => exact fun hn => (List.mem_append.1 hn).elim ih ih'
  | bar _ _ ih ih' => exact fun hn => (List.mem_append.1 hn).elim ih (by simpa using ih')

theorem SpellsLookahead.smallNumbers {ts : List Token} {l : Option Phrase} (h : SpellsLookahead refers ts l) :
    SmallNumbers ts := by
  intro n hn
  cases h with
  | nothing => simp at hn
  | phrase h => exact h.smallNumbers n (by simpa using hn)

theorem SpellsRules.smallNumbers {ts : List Token} {ds : List Declaration} (h : SpellsRules refers ts ds) :
    SmallNumbers ts := by
  intro n
  induction h with
  | nil => simp
  | cons h _ ih =>
    refine fun hn => (List.mem_append.1 hn).elim (fun hn => ?_) ih
    cases h with
    | rule _ hbody hl =>
      simp only [List.mem_cons, reduceCtorEq, false_or, List.mem_append] at hn
      exact hn.elim (hbody.smallNumbers n) (hl.smallNumbers n)

end

/-- Naming the rules changes no number. -/
theorem mem_of_nameRules {n : Nat} (before : Option (Located Token)) (ts : List (Located Token)) :
    ∀ us, nameRules before ts = .ok us → .integer n ∈ values ts → .integer n ∈ values us := by
  fun_induction nameRules before ts with
  | case1 => simp
  | case2 => simp
  | case3 before t place rest name ht _ ih =>
    intro us h hn
    obtain ⟨vs, hvs, rfl⟩ := Except.map_eq_ok.1 h
    rcases List.mem_cons.1 hn with hn | hn
    · simp [ht] at hn
    · exact List.mem_cons_of_mem _ (ih vs hvs hn)
  | case4 => simp
  | case5 before t rest _ ih =>
    intro us h hn
    obtain ⟨vs, hvs, rfl⟩ := Except.map_eq_ok.1 h
    rcases List.mem_cons.1 hn with hn | hn
    · exact hn ▸ List.mem_cons_self
    · exact List.mem_cons_of_mem _ (ih vs hvs hn)

/-! ## Pieces -/

/-- A text is cut into tokens, and their numbers can be bounds. -/
def Countable (p : Position) (cs : List Char) : Prop :=
  ∃ ts, tokensFrom p cs = .ok ts ∧ SmallNumbers (values ts)

/-- If a text that starts with a piece is cut and its numbers can be bounds, then `Q` holds, and what follows the
piece is such a text. -/
def Ensures (s : String) (stop : Char → Prop) (Q : Prop) : Prop := ∀ (p : Position) (rest : List Char),
  Follows stop rest → Countable p (s.toList ++ rest) → Q ∧ ∃ q, Countable q rest

section

variable {s t : String} {stop stop' : Char → Prop} {P : List Token → Prop} {Q Q' : Prop}

theorem Cuts.ensures (h : Cuts s stop P) (hQ : ∀ us, P us → SmallNumbers us → Q) : Ensures s stop Q := by
  rintro p rest hrest ⟨ts, hts, hsmall⟩
  obtain ⟨us, q, hus, -, -, hcut⟩ := h p rest hrest
  rw [hcut] at hts
  obtain ⟨vs, hvs, rfl⟩ := Except.map_eq_ok.1 hts
  simp only [values, List.map_append] at hsmall
  exact ⟨hQ _ hus fun n hn => hsmall n (List.mem_append_left _ hn), q, vs, hvs,
    fun n hn => hsmall n (List.mem_append_right _ hn)⟩

theorem Ensures.imp (h : Ensures s stop Q) (hstop : ∀ c, stop' c → stop c) (hQ : Q → Q') : Ensures s stop' Q' := by
  intro p rest hrest hcs
  obtain ⟨hq, hnext⟩ := h p rest (fun c hc => hstop c (hrest c hc)) hcs
  exact ⟨hQ hq, hnext⟩

theorem Ensures.append (h : Ensures s stop Q) (h' : Ensures t stop' Q')
    (hfollows : ∀ rest, Follows stop' rest → Follows stop (t.toList ++ rest)) : Ensures (s ++ t) stop' (Q ∧ Q') := by
  intro p rest hrest hcs
  rw [String.toList_append, List.append_assoc] at hcs
  obtain ⟨hq, q, hcs⟩ := h p (t.toList ++ rest) (hfollows rest hrest) hcs
  obtain ⟨hq', hnext⟩ := h' q rest hrest hcs
  exact ⟨⟨hq, hq'⟩, hnext⟩

/-- A piece after which one ensures something. -/
theorem Ensures.after (h : Ensures t stop' Q) (hs : Cuts s stop P)
    (hfollows : ∀ rest, Follows stop' rest → Follows stop (t.toList ++ rest)) : Ensures (s ++ t) stop' Q :=
  ((hs.ensures fun _ _ _ => trivial).append h hfollows).imp (fun _ hc => hc) And.right

/-- A piece before which one ensures something. -/
theorem Ensures.before (h : Ensures s stop Q) (ht : Cuts t stop' P)
    (hfollows : ∀ rest, Follows stop' rest → Follows stop (t.toList ++ rest)) : Ensures (s ++ t) stop' Q :=
  (h.append (ht.ensures fun _ _ _ => trivial) hfollows).imp (fun _ hc => hc) And.left

theorem ensures_group (hs : Opens s) (h : Ensures s ends Q) : Ensures ("(" ++ s ++ ")") anything Q := by
  obtain ⟨c, cs, hc, hne⟩ := hs
  refine (h.after cuts_leftParen fun rest _ => ?_).before cuts_rightParen
    fun rest _ => follows_ends rfl (by decide) rest
  rw [hc]
  rintro d ⟨⟩
  exact hne

theorem ensures_intercalate {α : Type} {sep : String} {text : α → String} {R : α → Prop}
    (hsep : Cuts sep anything P) (hends : ∀ rest, Follows ends (sep.toList ++ rest)) :
    ∀ items : List α, items ≠ [] → (∀ x ∈ items, Ensures (text x) ends (R x)) →
      Ensures (sep.intercalate (items.map text)) ends (∀ x ∈ items, R x) := by
  intro items
  induction items with
  | nil => exact fun h => absurd rfl h
  | cons x items ih =>
    intro _ hall
    obtain ⟨hx, hitems⟩ := List.forall_mem_cons.1 hall
    cases items with
    | nil => simpa using hx
    | cons y items =>
      rw [List.map_cons, List.map_cons, String.intercalate_cons_cons]
      refine ((hx.before hsep fun rest _ => hends rest).append (ih (List.cons_ne_nil _ _) hitems)
        fun rest _ => follows_anything _).imp (fun _ hc => hc) fun h => ?_
      exact List.forall_mem_cons.2 h

end

/-! ## Counts -/

theorem le_of_readInteger {rest : List Char} (ds : List Char) : ∀ (p : Position) (n : Nat)
    {cut : Cut (ds ++ rest).length Nat}, (∀ c ∈ ds, c.isDigit = true) → n ≤ greatestInteger →
      readInteger p n (ds ++ rest) = .ok cut → Nat.ofDigitChars 10 ds n ≤ greatestInteger := by
  induction ds with
  | nil => exact fun _ _ _ _ hn _ => hn
  | cons d ds ih =>
    intro p n cut hds _ h
    obtain ⟨hd, hds⟩ := List.forall_mem_cons.1 hds
    rw [ofDigitChars_cons_place]
    unfold readInteger at h
    simp only [List.cons_append, hd, if_true] at h
    split at h
    · cases h
    · rename_i hle
      obtain ⟨_, hcut, -⟩ := Except.map_eq_ok.1 h
      exact ih _ _ hds (Nat.not_lt.1 hle) hcut

/-- A number in a text that is cut is not too great for that. -/
theorem le_of_tokensFrom {n : Nat} {p : Position} {rest : List Char} {ts : List (Located Token)}
    (h : tokensFrom p ((toString n).toList ++ rest) = .ok ts) : n ≤ greatestInteger := by
  obtain ⟨d, ds, hds, hd, hdigits, value⟩ := exists_digits n
  rw [show (toString n).toList = d :: ds by simp [hds], List.cons_append] at h
  obtain ⟨hspecial, hpunctuation⟩ := continuesName_spec (continuesName_of_isDigit hd)
  simp only [List.mem_cons, List.not_mem_nil, or_false, not_or] at hspecial
  have small : d.toNat - '0'.toNat ≤ greatestInteger := by
    simp only [Char.isDigit, Bool.and_eq_true, decide_eq_true_eq, UInt32.le_iff_toNat_le] at hd
    have : d.toNat ≤ 57 := hd.2
    rw [greatestInteger]
    omega
  have skip : skipBlanks false p (d :: (ds ++ rest)) = (p, d :: (ds ++ rest)) := by simp [skipBlanks, hspecial]
  rw [tokensFrom_eq, skip] at h
  simp only [readToken, hspecial, false_and, if_false, hpunctuation, not_startsName_of_isDigit hd, hd, if_true] at h
  split at h
  · cases h
  · rename_i hcut
    obtain ⟨_, hcut, -⟩ := Except.map_eq_ok.1 hcut
    exact value ▸ le_of_readInteger ds _ _ hdigits small hcut

theorem ensures_number (n : Nat) : Ensures (toString n) ends (n ≤ Quantifier.limit) := by
  rintro p rest hrest ⟨ts, hts, hsmall⟩
  have cut := (cuts_integer (le_of_tokensFrom hts)).ensures (Q := n ≤ Quantifier.limit) fun us hus h =>
    h n (hus ▸ List.mem_singleton_self _)
  refine cut p rest (fun c hc => ?_) ⟨ts, hts, hsmall⟩
  have := hrest c hc
  simp only [ends, continuesName, Bool.or_eq_false_iff] at this
  exact this.2

namespace Quantifier

/-- The bounds are in order. -/
def Ordered (q : Quantifier) : Prop := ∀ m ∈ q.most, q.least ≤ m

theorem Fits.ordered {q : Quantifier} (h : q.Fits) : q.Ordered := fun m hm => (h.2 m hm).1

end Quantifier

theorem ensures_quantifier {q : Quantifier} (hq : q.Ordered) : Ensures q.text anything q.Fits := by
  have opened (n : Nat) : Ensures ("\x7b" ++ toString n) ends (n ≤ Quantifier.limit) :=
    (ensures_number n).after cuts_leftBrace fun _ _ => follows_anything _
  cases q with
  | star => exact cuts_star.ensures fun _ _ _ => Quantifier.fits_star
  | plus =>
    exact (cuts_punctuation (c := '+') rfl (by decide) rfl (by decide)).ensures fun _ _ _ => Quantifier.fits_plus
  | question =>
    exact (cuts_punctuation (c := '?') rfl (by decide) rfl (by decide)).ensures fun _ _ _ => Quantifier.fits_question
  | exactly n =>
    refine ((opened n).before cuts_rightBrace fun rest _ => follows_ends rfl (by decide) rest).imp
      (fun _ hc => hc) fun hn => ⟨hn, ?_⟩
    rintro _ ⟨⟩
    exact ⟨le_rfl, hn⟩
  | atLeast n =>
    refine ((opened n).before cuts_openEnd fun rest _ => follows_ends rfl (by decide) rest).imp
      (fun _ hc => hc) fun hn => ⟨hn, ?_⟩
    rintro _ ⟨⟩
  | between m n =>
    have most : Ensures ("\x7b" ++ toString m ++ ",") anything (m ≤ Quantifier.limit) :=
      (opened m).before cuts_comma fun rest _ => follows_ends rfl (by decide) rest
    refine ((most.append (ensures_number n) fun _ _ => follows_anything _).before cuts_rightBrace
      fun rest _ => follows_ends rfl (by decide) rest).imp (fun _ hc => hc) fun h => ⟨h.1, ?_⟩
    rintro _ ⟨⟩
    exact ⟨hq n rfl, h.2⟩

/-! ## Sources -/

theorem ensures_source {known : String → Prop} {role : Role} {s : Source}
    (h : Formed known Quantifier.Ordered role s) : Ensures s.text ends (Readable known role s) := by
  induction h with
  | @literal s =>
    have cut : Cuts (Source.literalText s) ends (· = [.literal s]) := by
      rw [String.toList_inj.1 (toList_sourceLiteral s)]
      exact cuts_literal.of_anything
    exact cut.ensures fun _ _ _ => .literal
  | charClass h =>
    obtain ⟨ms, hs, hcode, hranges⟩ := h
    exact (cuts_brackets hs hcode hranges).of_anything.ensures fun _ _ _ => .charClass ⟨ms, hs, hcode, hranges⟩
  | name hn h => exact (cuts_name hn).ensures fun _ _ _ => .name hn h
  | @group ss hne h ih =>
    have opens : Opens (" | ".intercalate (Source.texts ss)) := by
      rw [Source.texts_eq]
      exact opens_intercalate hne fun s hs => (h s hs).opens
    refine (ensures_group opens ?_).imp (fun _ _ => trivial) (.group hne)
    rw [Source.texts_eq]
    exact ensures_intercalate cuts_bar (fun rest => follows_ends rfl (by decide) rest) ss hne ih
  | plain _ ih => exact ih.imp (fun _ hc => hc) .plain
  | @quantified s q _ hq ih =>
    exact (ih.append (ensures_quantifier hq) fun rest _ => q.follows_text rest).imp (fun _ _ => trivial)
      fun h => .quantified h.1 h.2
  | single _ ih => exact ih.imp (fun _ hc => hc) .single
  | @sequence ss hne _ ih =>
    rw [Source.text, Source.texts_eq]
    exact (ensures_intercalate cuts_blank (fun rest => follows_ends rfl (by decide) rest) ss hne ih).imp
      (fun _ hc => hc) (.sequence hne)

/-! ## Productions -/

namespace Production

variable {ps : List Production}

theorem ensures_line (h : Regular Quantifier.Ordered ps) {p : Production} (hp : p ∈ ps) :
    Ensures p.line ends (∀ s ∈ p.alternatives, Readable (· ∈ names ps) .sequence s) := by
  rw [line, Source.texts_eq]
  exact (ensures_intercalate cuts_bar (fun rest => follows_ends rfl (by decide) rest) p.alternatives
    (h.nonempty p hp) fun s hs => ensures_source (h.sources p hp s hs)).after (cuts_title (h.named p hp))
      fun _ _ => follows_anything _

theorem countable_newline {p : Position} {cs : List Char} :
    Countable p ('\n' :: cs) ↔ Countable ⟨p.line + 1, 1⟩ cs := by
  rw [Countable, tokensFrom_newline, Countable]

theorem readable_of_countable (h : Regular Quantifier.Ordered ps) (qs : List Production) : (∀ q ∈ qs, q ∈ ps) →
    ∀ p : Position, Countable p (qs.flatMap (·.text.toList)) →
      ∀ q ∈ qs, ∀ s ∈ q.alternatives, Readable (· ∈ names ps) .sequence s := by
  induction qs with
  | nil => simp
  | cons q qs ih =>
    intro hqs p hcs
    obtain ⟨hq, hqs⟩ := List.forall_mem_cons.1 hqs
    rw [List.flatMap_cons, toList_text, List.append_assoc] at hcs
    have follows : Follows ends ('\n' :: qs.flatMap (·.text.toList)) := by
      rintro c ⟨⟩
      decide
    obtain ⟨hreadable, r, hcs⟩ := ensures_line h hq p _ follows hcs
    exact List.forall_mem_cons.2 ⟨hreadable, ih hqs _ (countable_newline.1 hcs)⟩

/-- If a text of productions is accepted, then their counts can be read. -/
theorem Regular.wellFormed (h : Regular Quantifier.Ordered ps) {text root : String} {ds : List Declaration}
    (htext : Written ps text) (hparse : parse text root = .ok ds) : WellFormed ps := by
  obtain ⟨ts, hts⟩ := Ebnf.exists_tokens hparse
  obtain ⟨⟨us, hus, hspells⟩, -⟩ := spells_of_parse hts (Scope.ofTitles _) (fun _ h => h) (resolved_ofTitles _ ts)
    Scope.titles_ofTitles hparse
  have countable : Countable .start text.toList := by
    rw [tokens, Except.bind_eq_ok] at hts
    obtain ⟨raw, hraw, hnamed⟩ := hts
    refine ⟨raw, hraw, fun n hn => hspells.smallNumbers n ?_⟩
    split at hnamed
    · cases hnamed
    · simpa [hus] using mem_of_nameRules none raw ts hnamed hn
  refine ⟨h.nodup, h.named, h.nonempty, ?_⟩
  obtain ⟨k, htext⟩ := htext
  rw [htext] at countable
  clear htext
  generalize Position.start = p at countable
  induction k generalizing p with
  | zero => exact readable_of_countable h ps (fun _ hp => hp) p countable
  | succ k ih => exact ih _ (countable_newline.1 countable)

end Production

end ConstrainedDecoding.Ebnf
