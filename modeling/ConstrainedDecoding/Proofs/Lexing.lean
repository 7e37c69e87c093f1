import ConstrainedDecoding.Proofs.Descent
import ConstrainedDecoding.Proofs.Escapes

/-!
# Cutting texts piece by piece

A piece of a line is cut into its own tokens if what follows cannot belong to its last token, so
pieces that stand one after the other are cut one after the other.
-/
namespace ConstrainedDecoding.Ebnf

/-! ## Numbers and names -/

theorem reads_integer {stop : List Char} (hstop : ∀ c ∈ stop.head?, c.isDigit = false)
    (ds : List Char) : ∀ (p : Position) (n : Nat), (∀ c ∈ ds, c.isDigit = true) →
      Nat.ofDigitChars 10 ds n ≤ greatestInteger →
        Reads (readInteger p n (ds ++ stop)) (· = Nat.ofDigitChars 10 ds n) p.line stop := by
  induction ds with
  | nil =>
    intro p n _ _
    rw [List.nil_append]
    cases stop with
    | nil => exact ⟨_, rfl, rfl, rfl, rfl⟩
    | cons c stop =>
      have hc : c.isDigit = false := hstop c rfl
      rw [readInteger]
      simp only [hc]
      exact ⟨_, rfl, rfl, rfl, rfl⟩
  | cons d ds ih =>
    intro p n hds hle
    obtain ⟨hd, hds⟩ := List.forall_mem_cons.1 hds
    rw [ofDigitChars_cons_place] at hle ⊢
    have grows := le_ofDigitChars ds (n * 10 + (d.toNat - 48))
    rw [List.cons_append, readInteger]
    simp only [hd, if_true, Nat.not_lt.2 (grows.trans hle), if_false]
    exact (ih (p.right 1) _ hds hle).map fun cut hcut => ⟨hcut, rfl, rfl⟩

/-- A text that is cut into one identifier. -/
def IsName (s : String) : Prop :=
  ∃ c cs, s.toList = c :: cs ∧ startsName c = true ∧ ∀ d ∈ cs, continuesName d = true

theorem continuesName_of_startsName {c : Char} (h : startsName c = true) : continuesName c = true := by
  rw [continuesName, h, Bool.true_or]

theorem continuesName_of_isDigit {c : Char} (h : c.isDigit = true) : continuesName c = true := by
  rw [continuesName, h, Bool.or_true]

/-- A number behind a name leaves it a name. -/
theorem isName_of_derived {base name : String} (hbase : IsName base)
    (h : NameTable.Derived base name) : IsName name := by
  obtain rfl | ⟨i, rfl⟩ := h
  · exact hbase
  · obtain ⟨c, cs, htext, hc, hcs⟩ := hbase
    refine ⟨c, cs ++ '_' :: (toString i).toList, by simp [htext], hc, ?_⟩
    refine List.forall_mem_append.2 ⟨hcs, List.forall_mem_cons.2 ⟨by decide, fun d hd => ?_⟩⟩
    rw [Nat.toString_eq_repr, Nat.toList_repr] at hd
    exact continuesName_of_isDigit (Nat.isDigit_of_mem_toDigits (by decide) (by decide) hd)

theorem not_startsName_of_isDigit {c : Char} (h : c.isDigit = true) : startsName c = false := by
  simp only [Char.isDigit, Bool.and_eq_true, decide_eq_true_eq] at h
  have : c ≠ '_' ∧ c ≠ '-' ∧ c ≠ '.' := by
    refine ⟨?_, ?_, ?_⟩ <;>
      · rintro rfl
        revert h
        decide
  simp [startsName, Char.isAlpha, Char.isUpper, Char.isLower, this, UInt32.le_iff_toNat_le] at *
  omega

/-- What can stand in a name or number is none of the other signs. -/
theorem continuesName_spec {c : Char} (h : continuesName c = true) :
    c ∉ [' ', '\t', '\n', '\r', '#', '(', ':', '"', '[', '='] ∧ punctuation? c = none := by
  have ne {d : Char} (hd : continuesName d = false) : c ≠ d := by
    rintro rfl
    simp [hd] at h
  constructor
  · simp only [List.mem_cons, List.not_mem_nil, or_false, not_or]
    refine ⟨ne ?_, ne ?_, ne ?_, ne ?_, ne ?_, ne ?_, ne ?_, ne ?_, ne ?_, ne ?_⟩ <;> decide
  · unfold punctuation?
    repeat rw [if_neg (ne (by decide))]

/-! ## Tokens -/

theorem tokensFrom_eq (p : Position) (cs : List Char) : tokensFrom p cs =
    match skipBlanks false p cs with
    | (q, []) => .ok [⟨q, .endOfFile⟩]
    | (q, c :: rest) =>
      match readToken q c rest with
      | .error e => .error e
      | .ok cut => (tokensFrom cut.position cut.rest).map (⟨q, cut.value⟩ :: ·) := by
  rw [tokensFrom.eq_def]
  split
  · rename_i found
    exact found ▸ rfl
  · rename_i found
    exact found ▸ rfl

theorem tokensFrom_of_skipBlanks {p q : Position} {cs ds : List Char}
    (h : skipBlanks false p cs = skipBlanks false q ds) : tokensFrom p cs = tokensFrom q ds := by
  rw [tokensFrom_eq, h, ← tokensFrom_eq]

/-- The signs that stand before a token. -/
def blanks : List Char := ['\n', '\r', ' ', '\t', '#']

theorem tokensFrom_of_reads {p : Position} {c : Char} {cs rest : List Char} {V : Token → Prop}
    (hc : c ∉ blanks) (h : Reads (readToken p c cs) V p.line rest) :
    ∃ t q, V t ∧ q.line = p.line ∧
      tokensFrom p (c :: cs) = (tokensFrom q rest).map (⟨p, t⟩ :: ·) := by
  obtain ⟨cut, hcut, hV, hline, rfl⟩ := h
  refine ⟨cut.value, cut.position, hV, hline, ?_⟩
  simp only [blanks, List.mem_cons, List.not_mem_nil, or_false, not_or] at hc
  have skip : skipBlanks false p (c :: cs) = (p, c :: cs) := by simp [skipBlanks, hc]
  simp only [tokensFrom_eq p, skip, hcut]

/-- The name that a token holds. -/
def nameIn? : Token → Option String
  | .ruleName name | .identifier name => some name
  | _ => none

/-- What is so of a token that has been cut: its name can be read again, and it does not end a text. -/
structure Sound (t : Token) : Prop where
  named : ∀ name ∈ nameIn? t, IsName name
  ne_endOfFile : t ≠ .endOfFile

theorem sound_of_nameIn?_eq_none {t : Token} (h : nameIn? t = none) (ht : t ≠ .endOfFile) : Sound t :=
  ⟨by simp [h], ht⟩

theorem readToken_value {p : Position} {c : Char} {cs : List Char} {cut : Cut cs.length Token}
    (h : readToken p c cs = .ok cut) : Sound cut.value := by
  have punctuation {t : Token} (ht : punctuation? c = some t) : nameIn? t = none ∧ t ≠ .endOfFile := by
    cases t with
    | ruleName | identifier | endOfFile => grind [punctuation?]
    | _ => exact ⟨rfl, nofun⟩
  unfold readToken at h
  split at h
  · obtain rfl := Except.ok.inj h
    exact sound_of_nameIn?_eq_none rfl nofun
  · split at h
    · obtain rfl := Except.ok.inj h
      obtain ⟨hname, hne⟩ := punctuation (by assumption)
      exact sound_of_nameIn?_eq_none hname hne
    · split at h
      · split at h
        · obtain rfl := Except.ok.inj h
          exact sound_of_nameIn?_eq_none rfl nofun
        · cases h
      · split at h
        · obtain ⟨_, -, rfl⟩ := Except.map_eq_ok.1 h
          exact sound_of_nameIn?_eq_none rfl nofun
        · split at h
          · obtain ⟨_, -, rfl⟩ := Except.map_eq_ok.1 h
            exact sound_of_nameIn?_eq_none rfl nofun
          · split at h
            · rename_i hc
              obtain rfl := Except.ok.inj h
              refine ⟨?_, nofun⟩
              rintro _ ⟨⟩
              exact ⟨c, _, String.toList_ofList, hc, List.all_eq_true.1 List.all_takeWhile⟩
            · split at h
              · obtain ⟨_, -, rfl⟩ := Except.map_eq_ok.1 h
                exact sound_of_nameIn?_eq_none rfl nofun
              · cases h

theorem named_tokensFrom (p : Position) (cs : List Char) :
    ∀ ts, tokensFrom p cs = .ok ts → ∀ t ∈ values ts, ∀ name ∈ nameIn? t, IsName name := by
  fun_induction tokensFrom p cs with
  | case1 p cs q found =>
    rintro _ ⟨⟩
    simp [nameIn?]
  | case2 => simp
  | case3 p cs q c rest found cut hcut ih =>
    intro ts h
    obtain ⟨us, hus, rfl⟩ := Except.map_eq_ok.1 h
    exact List.forall_mem_cons.2 ⟨(readToken_value hcut).named, ih us hus⟩

theorem named_nameRules (before : Option (Located Token)) (ts : List (Located Token)) :
    ∀ us, nameRules before ts = .ok us → (∀ t ∈ values ts, ∀ name ∈ nameIn? t, IsName name) →
      ∀ t ∈ values us, ∀ name ∈ nameIn? t, IsName name := by
  fun_induction nameRules before ts with
  | case1 =>
    rintro _ ⟨⟩
    simp
  | case2 => simp
  | case3 before t place rest name ht _ ih =>
    intro us h hts
    obtain ⟨vs, hvs, rfl⟩ := Except.map_eq_ok.1 h
    obtain ⟨htitle, hrest⟩ := List.forall_mem_cons.1 hts
    exact List.forall_mem_cons.2 ⟨by simpa [ht, nameIn?] using htitle, ih vs hvs hrest⟩
  | case4 => simp
  | case5 before t rest _ ih =>
    intro us h hts
    obtain ⟨vs, hvs, rfl⟩ := Except.map_eq_ok.1 h
    obtain ⟨ht, hrest⟩ := List.forall_mem_cons.1 hts
    exact List.forall_mem_cons.2 ⟨ht, ih vs hvs hrest⟩

/-- The names in the tokens of a text can be read again. -/
theorem named_tokens {text : String} {ts : List (Located Token)} (h : tokens text = .ok ts) :
    ∀ t ∈ values ts, ∀ name ∈ nameIn? t, IsName name := by
  rw [tokens, Except.bind_eq_ok] at h
  obtain ⟨us, hus, h⟩ := h
  have named := named_tokensFrom _ _ us hus
  split at h
  · cases h
  · exact named_nameRules _ _ _ h named

/-! ## Pieces -/

/-- What follows a piece of text starts as `stop` says, if it does not end there. -/
def Follows (stop : Char → Prop) (rest : List Char) : Prop := ∀ c ∈ rest.head?, stop c

/-- A piece of a line is cut into tokens with `P`, whatever follows it that starts as `stop` says. -/
def Cuts (s : String) (stop : Char → Prop) (P : List Token → Prop) : Prop :=
  ∀ (p : Position) (rest : List Char), Follows stop rest → ∃ us q, P (values us) ∧ q.line = p.line ∧
    (∀ u ∈ us, u.position.line = p.line) ∧
      tokensFrom p (s.toList ++ rest) = (tokensFrom q rest).map (us ++ ·)

/-- Anything may follow. -/
abbrev anything (_ : Char) : Prop := True

section Cuts

variable {s t : String} {stop stop' : Char → Prop} {P Q R : List Token → Prop}

theorem follows_anything (rest : List Char) : Follows anything rest := fun _ _ => trivial

theorem Cuts.imp (h : Cuts s stop P) (hP : ∀ us, P us → Q us) : Cuts s stop Q := fun p rest hrest =>
  let ⟨us, q, hus, h⟩ := h p rest hrest
  ⟨us, q, hP _ hus, h⟩

theorem Cuts.of_anything (h : Cuts s anything P) : Cuts s stop P := fun p rest _ =>
  h p rest (follows_anything rest)

/-- Pieces are cut one after the other, if the second may follow the first. -/
theorem Cuts.append (h : Cuts s stop P) (h' : Cuts t stop' Q)
    (hfollows : ∀ rest, Follows stop' rest → Follows stop (t.toList ++ rest))
    (hR : ∀ us vs, P us → Q vs → R (us ++ vs)) : Cuts (s ++ t) stop' R := by
  intro p rest hrest
  obtain ⟨us, q, hus, hq, hline, hcut⟩ := h p (t.toList ++ rest) (hfollows rest hrest)
  obtain ⟨vs, r, hvs, hr, hline', hcut'⟩ := h' q rest hrest
  refine ⟨us ++ vs, r, ?_, hr.trans hq, ?_, ?_⟩
  · rw [values, List.map_append]
    exact hR _ _ hus hvs
  · exact List.forall_mem_append.2 ⟨hline, fun u hu => (hline' u hu).trans hq⟩
  · rw [String.toList_append, List.append_assoc, hcut, hcut']
    cases tokensFrom r rest <;> simp [Except.map]

theorem cuts_blank : Cuts " " anything (· = []) := by
  intro p rest _
  refine ⟨[], p.after ' ' rest.head?, rfl, rfl, by simp, ?_⟩
  have step : tokensFrom p (' ' :: rest) = tokensFrom (p.after ' ' rest.head?) rest :=
    tokensFrom_of_skipBlanks (by simp [skipBlanks])
  rw [show " ".toList = [' '] from rfl, List.singleton_append, step]
  cases tokensFrom (p.after ' ' rest.head?) rest <;> rfl

theorem cuts_token {c : Char} {cs : List Char} {V : Token → Prop} (hs : s.toList = c :: cs)
    (hc : c ∉ blanks)
    (h : ∀ p rest, Follows stop rest → Reads (readToken p c (cs ++ rest)) V p.line rest)
    (hP : ∀ t, V t → P [t]) : Cuts s stop P := by
  intro p rest hrest
  obtain ⟨t, q, ht, hq, hcut⟩ := tokensFrom_of_reads hc (h p rest hrest)
  refine ⟨[⟨p, t⟩], q, hP t ht, hq, by simp, ?_⟩
  rw [hs, List.cons_append, hcut]
  rfl

theorem cuts_punctuation {c : Char} {t : Token} (hs : s.toList = [c]) (hc : c ∉ blanks)
    (ht : punctuation? c = some t) (hparen : c ≠ '(') : Cuts s anything (· = [t]) := by
  refine cuts_token hs hc (V := (· = t)) (fun p rest _ => ?_) (by rintro _ rfl; rfl)
  simp only [readToken, hparen, false_and, if_false, ht]
  exact ⟨_, rfl, rfl, rfl, rfl⟩

theorem cuts_leftParen : Cuts "(" (· ≠ '=') (· = [.leftParen]) := by
  refine cuts_token rfl (by decide) (V := (· = .leftParen)) (fun p rest hrest => ?_)
    (by rintro _ rfl; rfl)
  have plain : rest.head? ≠ some '=' := fun h => hrest '=' h rfl
  simp only [readToken, List.nil_append, plain, and_false, if_false]
  exact ⟨_, rfl, rfl, rfl, rfl⟩

theorem cuts_leftLookahead : Cuts "(=" anything (· = [.leftLookahead]) := by
  refine cuts_token rfl (by decide) (V := (· = .leftLookahead)) (fun p rest _ => ?_)
    (by rintro _ rfl; rfl)
  exact ⟨_, rfl, rfl, rfl, rfl⟩

theorem cuts_assign : Cuts "::=" anything (· = [.assign]) := by
  refine cuts_token rfl (by decide) (V := (· = .assign)) (fun p rest _ => ?_)
    (by rintro _ rfl; rfl)
  exact ⟨_, rfl, rfl, rfl, rfl⟩

theorem cuts_name (h : IsName s) : Cuts s (continuesName · = false) (· = [.identifier s]) := by
  obtain ⟨c, cs, hs, hc, hcs⟩ := h
  obtain ⟨hspecial, hpunctuation⟩ := continuesName_spec (continuesName_of_startsName hc)
  simp only [List.mem_cons, List.not_mem_nil, or_false, not_or] at hspecial
  refine cuts_token hs (by simp [blanks, hspecial]) (V := (· = .identifier s)) (fun p rest hrest => ?_)
    (by rintro _ rfl; rfl)
  have stop : rest.takeWhile continuesName = [] ∧ rest.dropWhile continuesName = rest := by
    cases rest with
    | nil => exact ⟨rfl, rfl⟩
    | cons d rest =>
      have hd : continuesName d = false := hrest d rfl
      simp [hd]
  have name : String.ofList (c :: cs) = s := by rw [← hs, String.ofList_toList]
  simp only [readToken, hspecial, false_and, if_false, hpunctuation, hc, if_true,
    List.takeWhile_append_of_pos hcs, List.dropWhile_append_of_pos hcs, stop, List.append_nil, name]
  exact ⟨_, rfl, rfl, rfl, rfl⟩

theorem cuts_integer {n : Nat} (h : n ≤ greatestInteger) :
    Cuts (toString n) (·.isDigit = false) (· = [.integer n]) := by
  obtain ⟨d, ds, hds, hd, hdigits, value⟩ := exists_digits n
  have hs : (toString n).toList = d :: ds := by simp [hds]
  obtain ⟨hspecial, hpunctuation⟩ := continuesName_spec (continuesName_of_isDigit hd)
  simp only [List.mem_cons, List.not_mem_nil, or_false, not_or] at hspecial
  refine cuts_token hs (by simp [blanks, hspecial]) (V := (· = .integer n)) (fun p rest hrest => ?_)
    (by rintro _ rfl; rfl)
  have noName := not_startsName_of_isDigit hd
  simp only [readToken, hspecial, false_and, if_false, hpunctuation, noName, hd, if_true]
  refine (reads_integer hrest ds (p.right 1) _ hdigits (value.trans_le h)).map fun cut hcut =>
    ⟨?_, rfl, rfl⟩
  rw [hcut, ← value]

/-- A text that is put together from pieces is their characters one after the other. -/
theorem toList_literalText (s : String) :
    (Grammar.literalText (Utf8.ofString s)).toList = '"' :: (literalChars s.toList ++ ['"']) := by
  rw [Grammar.literalText, Utf8.ofString, Utf8.pieces_encode]
  simp [toList_foldl_append, literalChars, List.flatMap_map]

/-- A text between quotes is one token with that text, whatever follows. -/
theorem reads_quoted (s : String) (p : Position) (rest : List Char) :
    Reads (readToken p '"' (literalChars s.toList ++ ['"'] ++ rest)) (· = .literal s) p.line rest := by
  have more : literalChars s.toList ++ ['"'] ++ rest = literalChars s.toList ++ '"' :: rest := by simp
  refine (reads_literal s.toList rest (p.right 1) [] _ more).map fun cut hcut => ⟨?_, rfl, rfl⟩
  rw [hcut]
  simp

theorem cuts_literal : Cuts (Grammar.literalText (Utf8.ofString s)) anything (· = [.literal s]) :=
  cuts_token (toList_literalText s) (by decide) (V := (· = .literal s)) (fun p rest _ => reads_quoted s p rest)
    (by rintro _ rfl; rfl)

theorem toList_rangeText (r : UInt32 × UInt32) :
    (Grammar.rangeText r).toList = memberChars Grammar.codePointText (rangeMembers r) := by
  unfold Grammar.rangeText rangeMembers
  split <;> simp [memberChars, memberText]

/-- The characters of a class between brackets, given its members and how code points are written. -/
def classChars (code : UInt32 → String) (negated : Bool) (ms : List ClassMember) : List Char :=
  '[' :: ((if negated then ['^'] else []) ++ memberChars code ms ++ [']'])

theorem toList_classText (set : CharClass) : (Grammar.classText set).toList =
    classChars Grammar.codePointText set.negated (set.ranges.flatMap rangeMembers) := by
  rw [Grammar.classText, classChars]
  cases set.negated <;>
    simp [toList_foldl_append, toList_rangeText, memberChars, List.flatMap_assoc]

section

variable {code : UInt32 → String} {set : CharClass} {ms : List ClassMember}

theorem head_memberChars (hcode : ∀ n, .code n ∈ ms → InClass code n) (rest : List Char) :
    (memberChars code ms ++ ']' :: rest).head? ≠ some '^' := by
  match ms with
  | [] => simp [memberChars]
  | .dash :: ms => simp [memberChars, memberText]
  | .code n :: ms =>
    obtain ⟨a, as, htext, hspecial, -⟩ := hcode n List.mem_cons_self
    rw [memberChars, List.flatMap_cons, memberText, htext]
    rintro ⟨⟩
    exact hspecial (by decide)

/-- A token is a class with members that have the ranges of a set. -/
def IsClass (set : CharClass) (t : Token) : Prop :=
  ∃ members close, t = .charClass set.negated members close ∧ Ranges (members.map (·.value)) set.ranges

/-- Members between brackets are one token, a class that has their ranges, whatever follows. -/
theorem reads_brackets (hcode : ∀ n, .code n ∈ ms → InClass code n) (hranges : Ranges ms set.ranges)
    (p : Position) (rest : List Char) :
    Reads (readToken p '[' ((if set.negated then ['^'] else []) ++ memberChars code ms ++ [']'] ++ rest))
      (IsClass set) p.line rest := by
  have punctuation : punctuation? '[' = none := by decide
  have head := head_memberChars hcode rest
  generalize hcs : (if set.negated then ['^'] else []) ++ memberChars code ms ++ [']'] ++ rest = cs
  have negated : decide (cs.head? = some '^') = set.negated := by
    rw [← hcs]
    cases set.negated
    · simpa using head
    · rfl
  have drop : cs.drop (if cs.head? = some '^' then 1 else 0) = memberChars code ms ++ ']' :: rest := by
    cases hset : set.negated with
    | true => simp [← hcs, hset]
    | false =>
      have plain : cs.head? ≠ some '^' := by simpa [hset] using negated
      rw [if_neg plain, List.drop_zero, ← hcs, hset]
      simp
  have : '[' ≠ '(' ∧ '[' ≠ ':' ∧ '[' ≠ '"' := by decide
  simp only [readToken, punctuation, this, false_and, if_false, if_true]
  refine (reads_members ms rest hcode _ [] _ drop).map fun cut hcut =>
    ⟨⟨cut.value.1, cut.value.2, ?_, ?_⟩, rfl, rfl⟩
  · rw [negated]
  · rw [hcut]
    exact hranges

/-- A class between brackets is cut into one token with its members. -/
theorem cuts_brackets (hs : s.toList = classChars code set.negated ms)
    (hcode : ∀ n, .code n ∈ ms → InClass code n) (hranges : Ranges ms set.ranges) :
    Cuts s anything fun ts => ∃ members close,
      ts = [.charClass set.negated members close] ∧ Ranges (members.map (·.value)) set.ranges :=
  cuts_token hs (by decide) (V := IsClass set) (fun p rest _ => reads_brackets hcode hranges p rest)
    (by rintro _ ⟨members, close, rfl, h⟩; exact ⟨members, close, rfl, h⟩)

theorem cuts_class (h : ∀ r ∈ set.ranges, r.1 ≤ r.2) :
    Cuts (Grammar.classText set) anything fun ts => ∃ members close,
      ts = [.charClass set.negated members close] ∧ Ranges (members.map (·.value)) set.ranges :=
  cuts_brackets (toList_classText set)
    (inClass_of_mem_rangeMembers fun r _ => ⟨spelling_codePointText r.1, spelling_codePointText r.2⟩)
    (ranges_rangeMembers h)

end

end Cuts

end ConstrainedDecoding.Ebnf
