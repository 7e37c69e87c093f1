import ConstrainedDecoding.Proofs.Folds
import ConstrainedDecoding.Proofs.PatternSyntax
import ConstrainedDecoding.Regex.Parser

/-!
# Reading escapes and classes

An escape is read exactly where characters spell one, and a class exactly where characters are the
members of one; the ranges that are read then cover the characters of the class.
-/
namespace ConstrainedDecoding.Regex

/-- A part of a pattern is read as a value, and characters are left. -/
def Leaves {n : Nat} {α : Type} (outcome : Except Fault (Read n α)) (v : α) (rest : List Char) : Prop :=
  ∃ r, outcome = .ok r ∧ r.value = v ∧ r.rest = rest

section Leaves

variable {m n : Nat} {α β : Type} {outcome : Except Fault (Read n α)} {v : α} {w : β} {rest : List Char}

@[simp] theorem leaves_ok {r : Read n α} : Leaves (.ok r) v rest ↔ r.value = v ∧ r.rest = rest := by
  simp [Leaves]

@[simp] theorem not_leaves_error {fault : Fault} :
    ¬ Leaves (.error fault : Except Fault (Read n α)) v rest := by
  rintro ⟨_, ⟨⟩, -⟩

/-- What is changed after reading leaves the same characters. -/
theorem leaves_map {f : Read n α → Read m β} (g : α → β)
    (hf : ∀ r, (f r).value = g r.value ∧ (f r).rest = r.rest) :
    Leaves (outcome.map f) w rest ↔ ∃ v, Leaves outcome v rest ∧ g v = w := by
  cases outcome with
  | error fault => simp [Except.map]
  | ok r => simp [Except.map, hf r, and_comm]

@[simp] theorem leaves_after {cs : List Char} {c : Char} {outcome : Except Fault (Read cs.length α)} :
    Leaves (outcome.map (·.after c)) v rest ↔ Leaves outcome v rest :=
  (leaves_map (f := (·.after c)) id fun _ => ⟨rfl, rfl⟩).trans (by simp)

/-- What is changed in the value leaves the same characters, counted among more. -/
theorem leaves_widen {g : α → β} {h : m ≤ n} {outcome : Except Fault (Read m α)} :
    Leaves (outcome.map fun r => (r.map g).widen h) w rest ↔ ∃ v, Leaves outcome v rest ∧ g v = w :=
  leaves_map g fun _ => ⟨rfl, rfl⟩

end Leaves

/-- Characters up to a stop, where the first character is not the stop. -/
theorem exists_before_of_ne {stop c : Char} {cs rest : List Char} {P : List Char → Prop} (hc : c ≠ stop) :
    (∃ ds, c :: cs = ds ++ stop :: rest ∧ P ds) ↔ ∃ ds, cs = ds ++ stop :: rest ∧ P (c :: ds) := by
  constructor
  · rintro ⟨ds, hds, h⟩
    cases ds with
    | nil => exact absurd (List.cons.inj hds).1 hc
    | cons d ds =>
      obtain ⟨rfl, hcs⟩ := List.cons.inj hds
      exact ⟨ds, hcs, h⟩
  · rintro ⟨ds, rfl, h⟩
    exact ⟨c :: ds, rfl, h⟩

/-- Characters up to a stop that is none of them, where the first character is the stop. -/
theorem exists_before_self {stop : Char} {cs rest : List Char} {P : List Char → Prop}
    (hP : ∀ ds, P ds → stop ∉ ds) : (∃ ds, stop :: cs = ds ++ stop :: rest ∧ P ds) ↔ cs = rest ∧ P [] := by
  constructor
  · rintro ⟨ds, hds, h⟩
    cases ds with
    | nil => exact ⟨(List.cons.inj hds).2, h⟩
    | cons d ds =>
      obtain ⟨rfl, -⟩ := List.cons.inj hds
      exact absurd List.mem_cons_self (hP _ h)
  · rintro ⟨rfl, h⟩
    exact ⟨[], rfl, h⟩

/-! ## Escapes -/

variable {rest : List Char}

/-- A number that one more hexadecimal digit is appended to. -/
def appendHex (n : Nat) (d : Char) : Nat := n * 16 + (Text.hexValue? d).getD 0

theorem takeHex_leaves {count : Nat} : ∀ {n v : Nat} {cs : List Char},
    Leaves (takeHex n count cs) v rest ↔ ∃ ds, cs = ds ++ rest ∧ ds.length = count ∧
      (∀ d ∈ ds, Text.isHex d = true) ∧ ds.foldl appendHex n = v := by
  induction count with
  | zero =>
    intro n v cs
    simp only [takeHex, leaves_ok, List.length_eq_zero_iff]
    constructor
    · rintro ⟨rfl, rfl⟩
      exact ⟨[], rfl, rfl, by simp, rfl⟩
    · rintro ⟨_, rfl, rfl, -, rfl⟩
      exact ⟨rfl, rfl⟩
  | succ count ih =>
    intro n v cs
    cases cs with
    | nil =>
      simp only [takeHex, not_leaves_error, false_iff]
      rintro ⟨ds, hds, hlen, -⟩
      simp [(List.append_eq_nil_iff.1 hds.symm).1] at hlen
    | cons c cs =>
      rw [takeHex]
      cases hc : Text.hexValue? c with
      | none =>
        simp only [not_leaves_error, false_iff]
        rintro ⟨ds, hds, hlen, hall, -⟩
        cases ds with
        | nil => simp at hlen
        | cons d ds =>
          obtain ⟨rfl, -⟩ := List.cons.inj hds
          simpa [Text.isHex, hc] using hall c List.mem_cons_self
      | some d =>
        simp only [leaves_after, ih]
        constructor
        · rintro ⟨ds, rfl, hlen, hall, hv⟩
          exact ⟨c :: ds, rfl, by simp [hlen], by simpa [Text.isHex, hc] using hall, by simpa [appendHex, hc] using hv⟩
        · rintro ⟨ds, hds, hlen, hall, hv⟩
          cases ds with
          | nil => simp at hlen
          | cons d' ds =>
            obtain ⟨rfl, rfl⟩ := List.cons.inj hds
            exact ⟨ds, rfl, by simpa using hlen, fun x hx => hall x (List.mem_cons_of_mem _ hx),
              by simpa [appendHex, hc] using hv⟩

theorem le_foldl_appendHex (ds : List Char) : ∀ n : Nat, n ≤ ds.foldl appendHex n := by
  induction ds with
  | nil => exact fun n => le_rfl
  | cons d ds ih => exact fun n => le_trans (by simp only [appendHex]; omega) (ih (appendHex n d))

theorem readBraced_leaves {cs : List Char} : ∀ {n : Option Nat} {v : Nat},
    Leaves (readBraced n cs) v rest ↔ ∃ ds, cs = ds ++ '\x7d' :: rest ∧ (n = none → ds ≠ []) ∧
      (∀ d ∈ ds, Text.isHex d = true) ∧ ds.foldl appendHex (n.getD 0) = v ∧ (ds ≠ [] → v ≤ 0x10ffff) := by
  induction cs with
  | nil => intro n v; simp [readBraced]
  | cons c cs ih =>
    intro n v
    rw [readBraced.eq_def]
    dsimp only
    by_cases hclose : c = '\x7d'
    · subst hclose
      -- a closing brace is no digit, so no digits are read
      rw [if_pos rfl, exists_before_self fun ds h hmem => absurd (h.2.1 _ hmem) (by decide)]
      cases n <;> simp [Read.skip, and_comm]
    · rw [if_neg hclose, exists_before_of_ne hclose]
      simp only [List.forall_mem_cons, List.foldl_cons]
      cases hc : Text.hexValue? c with
      | none => simp [Text.isHex, hc]
      | some d =>
        have step : appendHex (n.getD 0) c = n.getD 0 * 16 + d := by simp [appendHex, hc]
        dsimp only
        split
        · rename_i hlarge
          simp only [not_leaves_error, false_iff]
          rintro ⟨ds, -, -, -, hv, hle⟩
          have := le_foldl_appendHex ds (appendHex (n.getD 0) c)
          have := hle (by simp)
          omega
        · rename_i hsmall
          simp only [leaves_after, ih]
          refine exists_congr fun ds => and_congr_right fun _ => ?_
          simp only [Text.isHex, hc, step, Option.getD_some, Option.isSome_some, reduceCtorEq, false_implies,
            true_and, ne_eq, not_false_eq_true, implies_true, forall_const]
          refine and_congr_right fun _ => and_congr_right fun hv => ⟨fun hle => ?_, fun hle _ => hle⟩
          cases ds with
          | nil => rw [← hv]; exact Nat.not_lt.1 hsmall
          | cons _ _ => exact hle (by simp)

theorem escaped_cons_iff {others : List Char} {e : Char} {ds : List Char} {n : Nat} :
    Escaped others (e :: ds) n ↔ (ds = [] ∧ (e, n) ∈ controls) ∨
      (e = 'x' ∧ ds.length = 2 ∧ Hex ds n) ∨ (e = 'u' ∧ ds.length = 4 ∧ Hex ds n) ∨
      (e = 'u' ∧ ∃ es, ds = '\x7b' :: (es ++ ['\x7d']) ∧ es ≠ [] ∧ Hex es n ∧ n ≤ 0x10ffff) ∨
      (ds = [] ∧ e ∉ letters ∧ e ∉ others ∧ n = e.toNat) := by
  constructor
  · intro h
    cases h with
    | control h => exact Or.inl ⟨rfl, h⟩
    | byte hlen h => exact Or.inr (Or.inl ⟨rfl, hlen, h⟩)
    | short hlen h => exact Or.inr (Or.inr (Or.inl ⟨rfl, hlen, h⟩))
    | braced hne h hle => exact Or.inr (Or.inr (Or.inr (Or.inl ⟨rfl, _, rfl, hne, h, hle⟩)))
    | own h h' => exact Or.inr (Or.inr (Or.inr (Or.inr ⟨rfl, h, h', rfl⟩)))
  · rintro (⟨rfl, h⟩ | ⟨rfl, hlen, h⟩ | ⟨rfl, hlen, h⟩ | ⟨rfl, es, rfl, hne, h, hle⟩ | ⟨rfl, h, h', rfl⟩)
    · exact .control h
    · exact .byte hlen h
    · exact .short hlen h
    · exact .braced hne h hle
    · exact .own h h'

theorem hexDigits_leaves {count n : Nat} {cs : List Char} : Leaves (takeHex 0 count cs) n rest ↔
    ∃ ds, cs = ds ++ rest ∧ ds.length = count ∧ Hex ds n := takeHex_leaves

/-- After `u`, four digits are read, or digits in braces. -/
theorem escapeCode_u_leaves {cs : List Char} {n : Nat} : Leaves (escapeCode 'u' cs) n rest ↔
    ∃ ds, cs = ds ++ rest ∧ (ds.length = 4 ∧ Hex ds n ∨
      ∃ es, ds = '\x7b' :: (es ++ ['\x7d']) ∧ es ≠ [] ∧ Hex es n ∧ n ≤ 0x10ffff) := by
  by_cases hbrace : ∃ ds, cs = '\x7b' :: ds
  · obtain ⟨cs, rfl⟩ := hbrace
    rw [show escapeCode 'u' ('\x7b' :: cs) = (readBraced none cs).map (·.after _) from rfl,
      leaves_after, readBraced_leaves]
    constructor
    · rintro ⟨ds, rfl, hne, hall, hv, hle⟩
      exact ⟨'\x7b' :: (ds ++ ['\x7d']), by simp, Or.inr ⟨ds, rfl, hne rfl, ⟨hall, hv⟩, hle (hne rfl)⟩⟩
    · rintro ⟨ds, hds, ⟨hlen, hall, -⟩ | ⟨es, rfl, hne, ⟨hall, hv⟩, hle⟩⟩
      · cases ds with
        | nil => simp at hlen
        | cons d ds =>
          -- a brace is no digit
          obtain ⟨rfl, -⟩ := List.cons.inj hds
          exact absurd (hall _ List.mem_cons_self) (by decide)
      · exact ⟨es, by simpa using hds, fun _ => hne, hall, hv, fun _ => hle⟩
  · have hread : escapeCode 'u' cs = takeHex 0 4 cs := by
      simp +decide only [escapeCode, if_false, if_true]
      split
      · exact absurd ⟨_, rfl⟩ hbrace
      · rfl
    rw [hread, hexDigits_leaves]
    refine exists_congr fun ds => and_congr_right ?_
    rintro rfl
    refine (or_iff_left ?_).symm
    rintro ⟨es, rfl, -⟩
    exact hbrace ⟨_, rfl⟩

/-- A letter and what follows it are read as a code point exactly where they spell one. -/
theorem escapeCode_leaves {others : List Char} {e : Char} {cs : List Char} {n : Nat}
    (he : e ∉ shorthands.map Prod.fst) (hothers : e ∉ others) :
    Leaves (escapeCode e cs) n rest ↔ ∃ ds, cs = ds ++ rest ∧ Escaped others (e :: ds) n := by
  -- a letter that is read alone
  have alone {m : Nat} (hread : escapeCode e cs = .ok (.keep m cs))
      (hescaped : ∀ ds, Escaped others (e :: ds) n ↔ ds = [] ∧ n = m) :
      Leaves (escapeCode e cs) n rest ↔ ∃ ds, cs = ds ++ rest ∧ Escaped others (e :: ds) n := by
    simp only [hread, leaves_ok, Read.keep, hescaped]
    constructor
    · rintro ⟨rfl, rfl⟩
      exact ⟨[], rfl, rfl, rfl⟩
    · rintro ⟨_, rfl, rfl, rfl⟩
      exact ⟨rfl, rfl⟩
  by_cases hn : e = 'n' ∨ e = 'r' ∨ e = 't' ∨ e = 'f' ∨ e = 'v' ∨ e = '0'
  · rcases hn with rfl | rfl | rfl | rfl | rfl | rfl
    all_goals exact alone rfl fun ds => by simp [escaped_cons_iff, controls, letters]
  simp only [not_or] at hn
  by_cases hx : e = 'x'
  · subst hx
    rw [show escapeCode 'x' cs = takeHex 0 2 cs from rfl, hexDigits_leaves]
    simp [escaped_cons_iff, controls, letters]
  by_cases hu : e = 'u'
  · subst hu
    rw [escapeCode_u_leaves]
    simp [escaped_cons_iff, controls, letters]
  · have hletters : e ∉ letters := by
      simp only [letters, controls, List.map_cons, List.map_nil, List.mem_cons, List.mem_append,
        List.not_mem_nil, or_false, not_or]
      exact ⟨hx, hu, hn, he⟩
    have hcontrols : (e, n) ∉ controls := by simp [controls, hn]
    refine alone (m := e.toNat) ?_ fun ds => ?_
    · simp [escapeCode, hn, hx, hu]
    · simp [escaped_cons_iff, hcontrols, hx, hu, hletters, hothers]

theorem shorthand?_eq_some {e : Char} {ranges : Ranges} {negated : Bool} :
    shorthand? e = some (ranges, negated) ↔ (e, ⟨negated, ranges⟩) ∈ shorthands := by
  constructor
  · intro h
    unfold shorthand? at h
    repeat' split at h
    all_goals cases h
    all_goals simp [shorthands, *]
  · intro h
    simp only [shorthands, List.mem_cons, List.not_mem_nil, or_false, Prod.mk.injEq,
      CharClass.mk.injEq] at h
    rcases h with ⟨rfl, rfl, rfl⟩ | ⟨rfl, rfl, rfl⟩ | ⟨rfl, rfl, rfl⟩ | ⟨rfl, rfl, rfl⟩ |
      ⟨rfl, rfl, rfl⟩ | ⟨rfl, rfl, rfl⟩
    all_goals rfl

theorem shorthand?_eq_none {e : Char} : shorthand? e = none ↔ e ∉ shorthands.map Prod.fst := by
  constructor
  · intro h hmem
    obtain ⟨⟨e, set⟩, hset, rfl⟩ := List.mem_map.1 hmem
    rw [shorthand?_eq_some.2 hset] at h
    cases h
  · intro h
    cases hs : shorthand? e with
    | none => rfl
    | some x => exact absurd (List.mem_map_of_mem (shorthand?_eq_some.1 hs)) h

theorem mem_refused {e : Char} : e ∈ refused ↔
    (e = 'b' ∨ e = 'B') ∨ (e = 'p' ∨ e = 'P') ∨ ('1' ≤ e ∧ e ≤ '9') ∨ e = 'k' := by
  have digit : e ∈ ['1', '2', '3', '4', '5', '6', '7', '8', '9'] ↔ '1' ≤ e ∧ e ≤ '9' := by
    constructor
    · intro h
      fin_cases h <;> decide
    · rintro ⟨hlo, hhi⟩
      have hlo : 49 ≤ e.toNat := hlo
      have hhi : e.toNat ≤ 57 := hhi
      have : e = Char.ofNat e.toNat := (Char.ofNat_toNat e).symm
      interval_cases e.toNat <;> simp [this]
  simp only [refused, List.mem_append, digit]
  simp

theorem Escaped.exists_cons {others cs : List Char} {n : Nat} (h : Escaped others cs n) :
    ∃ e ds, cs = e :: ds := by
  cases h <;> exact ⟨_, _, rfl⟩

/-- A letter with another meaning spells no code point. -/
theorem Escaped.notMem {others ds : List Char} {e : Char} {n : Nat} (h : Escaped others (e :: ds) n)
    (hothers : ∀ c ∈ others, c ∉ letters) : e ∉ shorthands.map Prod.fst ∧ e ∉ others := by
  have disjoint : ∀ c ∈ 'x' :: 'u' :: controls.map Prod.fst, c ∈ letters ∧
      c ∉ shorthands.map Prod.fst := by simp [letters, controls, shorthands]
  have apart {c : Char} (hc : c ∈ 'x' :: 'u' :: controls.map Prod.fst) :
      c ∉ shorthands.map Prod.fst ∧ c ∉ others :=
    ⟨(disjoint c hc).2, fun hmem => hothers c hmem (disjoint c hc).1⟩
  cases h with
  | control h => exact apart (by simp [List.mem_map_of_mem (f := Prod.fst) h])
  | byte | short | braced => exact apart (by decide)
  | own hletters hothers => exact ⟨fun h => hletters (by simp [letters, h]), hothers⟩

/-- A letter stands for a class where it is found as a shorthand. -/
theorem exists_shorthand {e : Char} {cs : List Char} {P : CharClass → Prop} :
    (∃ e' set, (e', set) ∈ shorthands ∧ e :: cs = e' :: rest ∧ P set) ↔
      ∃ x, shorthand? e = some x ∧ cs = rest ∧ P ⟨x.2, x.1⟩ := by
  constructor
  · rintro ⟨e', ⟨negated, ranges⟩, hset, hcs, h⟩
    obtain ⟨rfl, rfl⟩ := List.cons.inj hcs
    exact ⟨(ranges, negated), shorthand?_eq_some.2 hset, rfl, h⟩
  · rintro ⟨x, hshort, rfl, h⟩
    exact ⟨e, _, shorthand?_eq_some.1 hshort, rfl, h⟩

theorem exists_escaped_cons {others : List Char} {e : Char} {cs : List Char} {n : Nat} :
    (∃ ds, e :: cs = ds ++ rest ∧ Escaped others ds n) ↔ ∃ ds, cs = ds ++ rest ∧ Escaped others (e :: ds) n := by
  constructor
  · rintro ⟨ds, hds, h⟩
    obtain ⟨e', es, rfl⟩ := h.exists_cons
    obtain ⟨rfl, hes⟩ := List.cons.inj hds
    exact ⟨es, hes, h⟩
  · rintro ⟨ds, rfl, h⟩
    exact ⟨e :: ds, rfl, h⟩

theorem not_escaped_nil {others : List Char} {n : Nat} : ¬ ∃ ds, [] = ds ++ rest ∧ Escaped others ds n := by
  rintro ⟨ds, hds, h⟩
  obtain ⟨e, es, rfl⟩ := h.exists_cons
  cases hds

/-- A code point is read as its character, if it has one. -/
theorem charOf_leaves {e : Char} {cs : List Char} {outcome : Except Fault (Read cs.length Nat)} {p : Pattern} :
    Leaves (match outcome with
      | .error fault => .error fault
      | .ok r => if r.value.isValidChar then .ok ((r.map fun _ => .char (Char.ofNat r.value)).after e)
        else .error (.codePoint r.value)) p rest ↔ ∃ c : Char, Leaves outcome c.toNat rest ∧ p = .char c := by
  cases outcome with
  | error fault => simp
  | ok r =>
    dsimp only
    constructor
    · intro h
      split at h
      · rename_i hvalid
        obtain ⟨rfl, rfl⟩ := leaves_ok.1 h
        exact ⟨Char.ofNat r.value, leaves_ok.2 ⟨by rw [Char.toNat_ofNat, if_pos hvalid], rfl⟩, rfl⟩
      · exact absurd h not_leaves_error
    · rintro ⟨c, h, rfl⟩
      obtain ⟨hvalue, rfl⟩ := leaves_ok.1 h
      have hvalid : r.value.isValidChar := hvalue ▸ c.valid
      rw [if_pos hvalid, leaves_ok]
      exact ⟨by simp [Read.map, Read.after, hvalue], rfl⟩

/-- An escape outside brackets is read as the class or the character that it stands for. -/
theorem escape_leaves {cs : List Char} {p : Pattern} : Leaves (escape cs) p rest ↔
    (∃ e set, (e, set) ∈ shorthands ∧ cs = e :: rest ∧ p = .set set) ∨
      ∃ c : Char, (∃ ds, cs = ds ++ rest ∧ Escaped refused ds c.toNat) ∧ p = .char c := by
  cases cs with
  | nil => simp only [escape, not_leaves_error, not_escaped_nil, false_and, exists_false, or_false, reduceCtorEq, and_false]
  | cons e cs =>
    have noChar (he : e ∈ shorthands.map Prod.fst ∨ e ∈ refused) :
        ¬ ∃ c : Char, (∃ ds, cs = ds ++ rest ∧ Escaped refused (e :: ds) c.toNat) ∧ p = .char c := by
      rintro ⟨c, ⟨ds, -, h⟩, -⟩
      obtain ⟨hs, hr⟩ : e ∉ shorthands.map Prod.fst ∧ e ∉ refused :=
        h.notMem (by simp [refused, letters, controls, shorthands])
      exact he.elim hs hr
    simp only [exists_shorthand, exists_escaped_cons, escape]
    cases hs : shorthand? e with
    | some set =>
      have letter : e ∈ shorthands.map Prod.fst := by_contra fun h => by simp [shorthand?_eq_none.2 h] at hs
      refine Iff.trans ?_ (or_iff_left (noChar (.inl letter))).symm
      simp only [leaves_ok, Read.skip, Option.some.injEq, exists_eq_left']
      rw [and_comm, eq_comm (b := p)]
    | none =>
      refine Iff.trans ?_ (or_iff_right (by simp)).symm
      by_cases he : e ∈ refused
      · refine iff_of_false ?_ (noChar (.inr he))
        dsimp only
        split_ifs with hb hp hk
        · simp
        · simp
        · simp
        · exact absurd (mem_refused.1 he) (by tauto)
      · obtain ⟨hb, hp, hk⟩ : ¬ (e = 'b' ∨ e = 'B') ∧ ¬ (e = 'p' ∨ e = 'P') ∧
            ¬ (('1' ≤ e ∧ e ≤ '9') ∨ e = 'k') := by
          rw [← not_or, ← not_or, ← mem_refused]
          exact he
        simp only [if_neg hb, if_neg hp, if_neg hk]
        refine charOf_leaves.trans ?_
        simp only [escapeCode_leaves (shorthand?_eq_none.1 hs) he]

/-! ## Members of classes -/

theorem Hex.lt {ds : List Char} {n : Nat} (h : Hex ds n) : n < 16 ^ ds.length := by
  have digit (d : Char) : (Text.hexValue? d).getD 0 < 16 := by
    unfold Text.hexValue?
    split
    · rename_i h
      have : d.toNat ≤ 57 := h.2
      simp only [Option.getD_some]
      omega
    · split
      · rename_i h
        have : d.toNat ≤ 102 := h.2
        simp only [Option.getD_some]
        omega
      · split
        · rename_i h
          have : d.toNat ≤ 70 := h.2
          simp only [Option.getD_some]
          omega
        · exact Nat.succ_pos _
  have bound : ∀ (ds : List Char) (n : Nat), ds.foldl appendHex n < (n + 1) * 16 ^ ds.length := by
    intro ds
    induction ds with
    | nil => simp
    | cons d ds ih =>
      intro n
      have hd := digit d
      rw [List.foldl_cons, List.length_cons, pow_succ', ← mul_assoc]
      refine (ih _).trans_le (Nat.mul_le_mul_right _ ?_)
      simp only [appendHex]
      omega
  obtain ⟨-, rfl⟩ := h
  have := bound ds 0
  rwa [Nat.zero_add, Nat.one_mul] at this

theorem Escaped.le {others cs : List Char} {n : Nat} (h : Escaped others cs n) : n ≤ 0x10ffff := by
  cases h with
  | control h =>
    simp only [controls, List.mem_cons, List.not_mem_nil, or_false, Prod.mk.injEq] at h
    omega
  | byte hlen h =>
    have := h.lt
    rw [hlen] at this
    omega
  | short hlen h =>
    have := h.lt
    rw [hlen] at this
    omega
  | braced _ _ hle => exact hle
  | own => exact Char.toNat_le_max _

theorem Point.le {ps : List Char} {n : Nat} (h : Point ps n) : n ≤ 0x10ffff := by
  cases h with
  | plain => exact Char.toNat_le_max _
  | backspace => decide
  | escaped h => exact h.le

theorem Point.exists_cons {ps : List Char} {n : Nat} (h : Point ps n) :
    ∃ c cs, ps = c :: cs ∧ (c = ']' → cs = []) := by
  cases h with
  | plain => exact ⟨_, [], rfl, fun _ => rfl⟩
  | backspace => exact ⟨_, _, rfl, by decide⟩
  | escaped => exact ⟨_, _, rfl, fun h => absurd h (by decide)⟩

theorem point_of_plain {c : Char} {cs : List Char} (hc : c ≠ '\\') {n : Nat} :
    (∃ ps, c :: cs = ps ++ rest ∧ Point ps n) ↔ cs = rest ∧ n = c.toNat := by
  constructor
  · rintro ⟨ps, hps, h⟩
    cases h with
    | plain =>
      obtain ⟨rfl, rfl⟩ := List.cons.inj hps
      exact ⟨rfl, rfl⟩
    | backspace | escaped => exact absurd (List.cons.inj hps).1 hc
  · rintro ⟨rfl, rfl⟩
    exact ⟨[c], rfl, .plain hc⟩

theorem point_of_backslash {e : Char} {cs : List Char} {n : Nat} :
    (∃ ps, '\\' :: e :: cs = ps ++ rest ∧ Point ps n) ↔ (e = 'b' ∧ cs = rest ∧ n = 0x08) ∨
      ∃ ds, cs = ds ++ rest ∧ Escaped ['b', 'p', 'P'] (e :: ds) n := by
  constructor
  · rintro ⟨ps, hps, h⟩
    cases h with
    | plain hc => exact absurd (List.cons.inj hps).1.symm hc
    | backspace =>
      obtain ⟨-, h⟩ := List.cons.inj hps
      obtain ⟨rfl, rfl⟩ := List.cons.inj h
      exact Or.inl ⟨rfl, rfl, rfl⟩
    | escaped h =>
      obtain ⟨e', ds, rfl⟩ := h.exists_cons
      obtain ⟨rfl, hds⟩ := List.cons.inj (List.cons.inj hps).2
      exact Or.inr ⟨ds, hds, h⟩
  · rintro (⟨rfl, rfl, rfl⟩ | ⟨ds, rfl, h⟩)
    · exact ⟨_, rfl, .backspace⟩
    · exact ⟨_, rfl, .escaped h⟩

/-- The ranges that a shorthand stands for in brackets. -/
def insideRanges (set : CharClass) : Ranges := if set.negated then complement set.ranges else set.ranges

theorem not_point_backslash {n : Nat} : ¬ ∃ ps, ['\\'] = ps ++ rest ∧ Point ps n := by
  rintro ⟨ps, hps, h⟩
  cases h with
  | plain hc => exact absurd (List.cons.inj hps).1.symm hc
  | backspace => cases (List.cons.inj hps).2
  | escaped h =>
    obtain ⟨e, ds, rfl⟩ := h.exists_cons
    cases (List.cons.inj hps).2

theorem member_plain {c : Char} {cs : List Char} {m : Member} (hc : c ≠ '\\') :
    Leaves (member c cs) m rest ↔ cs = rest ∧ m = .code (UInt32.ofNat c.toNat) := by
  simp only [member, ne_eq, hc, not_false_eq_true, if_true, leaves_ok, Read.keep]
  rw [and_comm, eq_comm (b := m)]

/-- After a backslash, a shorthand is read, or a backspace, or an escape that stands for a code point. -/
theorem member_backslash {e : Char} {cs : List Char} {m : Member} : Leaves (member '\\' (e :: cs)) m rest ↔
    (∃ n, ((e = 'b' ∧ cs = rest ∧ n = 0x08) ∨ ∃ ds, cs = ds ++ rest ∧ Escaped ['b', 'p', 'P'] (e :: ds) n) ∧
        m = .code (UInt32.ofNat n)) ∨
      ∃ x, shorthand? e = some x ∧ cs = rest ∧ m = .shorthand (insideRanges ⟨x.2, x.1⟩) := by
  have apart {ds : List Char} {n : Nat} (h : Escaped ['b', 'p', 'P'] (e :: ds) n) :
      e ∉ shorthands.map Prod.fst ∧ e ∉ ['b', 'p', 'P'] :=
    h.notMem (by simp [letters, controls, shorthands])
  simp only [member, ne_eq, not_true_eq_false, if_false]
  cases hs : shorthand? e with
  | some set =>
    have letter : e ∈ shorthands.map Prod.fst := by_contra fun h => by simp [shorthand?_eq_none.2 h] at hs
    refine Iff.trans ?_ (or_iff_right ?_).symm
    · simp only [leaves_ok, Read.skip, Option.some.injEq, exists_eq_left']
      rw [and_comm, eq_comm (b := m)]
      rfl
    · rintro ⟨n, ⟨rfl, -⟩ | ⟨ds, -, h⟩, -⟩
      · exact absurd letter (by simp [shorthands])
      · exact (apart h).1 letter
  | none =>
    refine Iff.trans ?_ (or_iff_left (by simp)).symm
    dsimp only
    split_ifs with hb hp
    · subst hb
      have none {ds : List Char} {n : Nat} : ¬ Escaped ['b', 'p', 'P'] ('b' :: ds) n :=
        fun h => (apart h).2 (by simp)
      simp only [none, and_false, exists_false, or_false, true_and, leaves_ok, Read.skip]
      constructor
      · rintro ⟨rfl, rfl⟩
        exact ⟨8, ⟨rfl, rfl⟩, rfl⟩
      · rintro ⟨n, ⟨rfl, rfl⟩, rfl⟩
        exact ⟨rfl, rfl⟩
    · refine iff_of_false not_leaves_error ?_
      rintro ⟨n, ⟨h, -⟩ | ⟨ds, -, h⟩, -⟩
      · exact hb h
      · exact (apart h).2 (by simp [hp])
    · have hothers : e ∉ ['b', 'p', 'P'] := by simpa [hb] using hp
      refine (leaves_map (fun n => Member.code (UInt32.ofNat n)) fun _ => ⟨rfl, rfl⟩).trans ?_
      refine exists_congr fun n => ?_
      rw [escapeCode_leaves (shorthand?_eq_none.1 hs) hothers, or_iff_right fun h => hb h.1, eq_comm]

/-- A member is read where a code point or a shorthand stands. -/
theorem member_leaves {c : Char} {cs : List Char} {m : Member} : Leaves (member c cs) m rest ↔
    (∃ n, (∃ ps, c :: cs = ps ++ rest ∧ Point ps n) ∧ m = .code (UInt32.ofNat n)) ∨
      ∃ e set, (e, set) ∈ shorthands ∧ c :: cs = '\\' :: e :: rest ∧ m = .shorthand (insideRanges set) := by
  by_cases hc : c = '\\'
  · subst hc
    simp only [List.cons_inj_right]
    cases cs with
    | nil => simp [member, not_point_backslash]
    | cons e cs =>
      simp only [point_of_backslash, exists_shorthand]
      exact member_backslash
  · simp [member_plain hc, point_of_plain hc, hc, and_assoc]

/-! ## Classes -/

section

variable {rest : List Char} {size : Nat} {first : Bool} {c : Char} {cs rest₁ : List Char} {ranges : Ranges}

theorem members_close : Leaves (members size false (']' :: cs)) ranges rest ↔ ranges = [] ∧ cs = rest := by
  rw [members.eq_def]
  simp [Read.skip, eq_comm]

theorem exists_member (hc : c = ']' → first = true)
    (h : Leaves (members size first (c :: cs)) ranges rest) : ∃ m rest₁, Leaves (member c cs) m rest₁ := by
  have hclose : ¬ (c = ']' ∧ ¬ first = true) := fun h => h.2 (hc h.1)
  rw [members.eq_def] at h
  simp only [hclose, if_false] at h
  cases hm : member c cs with
  | error fault => simp [hm] at h
  | ok r => exact ⟨_, _, r, rfl, rfl, rfl⟩

theorem members_shorthand (hc : c = ']' → first = true) {inside : Ranges}
    (h : Leaves (member c cs) (.shorthand inside) rest₁) :
    Leaves (members size first (c :: cs)) ranges rest ↔
      ∃ more, Leaves (members size false rest₁) more rest ∧ inside ++ more = ranges := by
  have hclose : ¬ (c = ']' ∧ ¬ first = true) := fun h => h.2 (hc h.1)
  obtain ⟨⟨_, _, hle⟩, hm, rfl, rfl⟩ := h
  rw [members.eq_def]
  simp only [hclose, if_false, hm]
  exact leaves_widen

/-- A code point is a member by itself unless a dash and the end of a range follow. -/
theorem members_single (hc : c = ']' → first = true) {lo : UInt32}
    (h : Leaves (member c cs) (.code lo) rest₁) (hrest : ∀ h after, rest₁ = '-' :: h :: after → h = ']') :
    Leaves (members size first (c :: cs)) ranges rest ↔
      ∃ more, Leaves (members size false rest₁) more rest ∧ (lo, lo) :: more = ranges := by
  have hclose : ¬ (c = ']' ∧ ¬ first = true) := fun h => h.2 (hc h.1)
  obtain ⟨⟨_, _, hle⟩, hm, rfl, rfl⟩ := h
  rw [members.eq_def]
  simp only [hclose, if_false, hm]
  split
  · rw [if_pos (hrest _ _ rfl)]
    exact leaves_widen
  · exact leaves_widen

theorem members_range (hc : c = ']' → first = true) {lo : UInt32} {h : Char} {after : List Char}
    (hlo : Leaves (member c cs) (.code lo) ('-' :: h :: after)) (hh : h ≠ ']') :
    Leaves (members size first (c :: cs)) ranges rest ↔ ∃ hi rest₂ more,
      Leaves (member h after) (.code hi) rest₂ ∧ lo ≤ hi ∧ Leaves (members size false rest₂) more rest ∧
        (lo, hi) :: more = ranges := by
  have hclose : ¬ (c = ']' ∧ ¬ first = true) := fun h => h.2 (hc h.1)
  obtain ⟨⟨_, _, hle⟩, hm, rfl, hr⟩ := hlo
  dsimp only at hr
  subst hr
  rw [members.eq_def]
  simp only [hclose, if_false, hm, hh]
  cases hhi : member h after with
  | error fault => simp
  | ok r =>
    obtain ⟨m, rest₂, hle'⟩ := r
    cases m with
    | shorthand inside => simp
    | code hi =>
      dsimp only
      split
      · rename_i hlt
        simp only [not_leaves_error, false_iff]
        rintro ⟨hi', rest₂', more, hm', hle, -⟩
        simp only [leaves_ok] at hm'
        obtain ⟨⟨⟩, rfl⟩ := hm'
        exact absurd hlt (UInt32.not_lt.2 hle)
      · rename_i hge
        rw [leaves_widen]
        constructor
        · rintro ⟨more, hmore, rfl⟩
          exact ⟨hi, rest₂, more, by simp, UInt32.not_lt.1 hge, hmore, rfl⟩
        · rintro ⟨hi', rest₂', more, hm', -, hmore, rfl⟩
          simp only [leaves_ok] at hm'
          obtain ⟨⟨⟩, rfl⟩ := hm'
          exact ⟨more, hmore, rfl⟩

end

/-! ## Sets of characters -/

/-- The characters that ranges cover. -/
def spanned (ranges : Ranges) : Set Char := {c | CharClass.Covers ⟨false, ranges⟩ c.toNat}

theorem mem_spanned {ranges : Ranges} {c : Char} :
    c ∈ spanned ranges ↔ ∃ r ∈ ranges, r.1.toNat ≤ c.toNat ∧ c.toNat ≤ r.2.toNat := Iff.rfl

@[simp] theorem spanned_nil : spanned [] = ∅ := by
  ext c
  simp [mem_spanned]

@[simp] theorem spanned_cons (lo hi : UInt32) (ranges : Ranges) :
    spanned ((lo, hi) :: ranges) = {c | lo.toNat ≤ c.toNat ∧ c.toNat ≤ hi.toNat} ∪ spanned ranges := by
  ext c
  simp [mem_spanned]

@[simp] theorem spanned_append (ranges ranges' : Ranges) :
    spanned (ranges ++ ranges') = spanned ranges ∪ spanned ranges' := by
  ext c
  simp [mem_spanned, or_and_right, exists_or]

theorem chars_of_ranges (ranges : Ranges) : CharClass.chars ⟨false, ranges⟩ = spanned ranges := by
  ext c
  simp [CharClass.chars, CharClass.Has, spanned]

theorem chars_of_negated (ranges : Ranges) : CharClass.chars ⟨true, ranges⟩ = (spanned ranges)ᶜ := by
  ext c
  simp [CharClass.chars, CharClass.Has, spanned, CharClass.Covers]

/-- Ranges are in order, do not touch, and lie between a number and the end of Unicode. -/
def Ascending (next : UInt32) : Ranges → Prop
  | [] => True
  | (lo, hi) :: rest => next ≤ lo ∧ lo ≤ hi ∧ hi < 0x10ffff ∧ Ascending (hi + 1) rest

theorem Ascending.le {ranges : Ranges} : ∀ {next : UInt32}, Ascending next ranges →
    ∀ c ∈ spanned ranges, next.toNat ≤ c.toNat := by
  induction ranges with
  | nil => simp
  | cons r ranges ih =>
    obtain ⟨lo, hi⟩ := r
    rintro next ⟨hnext, hle, hlt, hrest⟩ c hc
    simp only [UInt32.le_iff_toNat_le, UInt32.lt_iff_toNat_lt, UInt32.reduceToNat] at hnext hle hlt
    rw [spanned_cons] at hc
    rcases hc with ⟨hc, -⟩ | hc
    · omega
    · have := ih hrest c hc
      rw [UInt32.toNat_add] at this
      simp only [UInt32.reduceToNat] at this
      omega

/-- Gaps have the characters that are not in the ranges. -/
theorem gaps_spec (ranges : Ranges) : ∀ next : UInt32, Ascending next ranges →
    (∀ r ∈ gaps next ranges, r.1 ≤ r.2) ∧ ∀ c : Char, c ∈ spanned (gaps next ranges) ↔
      next.toNat ≤ c.toNat ∧ c ∉ spanned ranges := by
  induction ranges with
  | nil =>
    intro next _
    have hc (c : Char) : c.toNat ≤ 0x10ffff := Char.toNat_le_max c
    rw [gaps]
    split
    · exact ⟨by simpa, fun c => by simp [hc c]⟩
    · rename_i hlt
      simp only [UInt32.le_iff_toNat_le, UInt32.reduceToNat] at hlt
      refine ⟨by simp, fun c => ?_⟩
      have := hc c
      simp only [spanned_nil, Set.mem_empty_iff_false, not_false_eq_true, and_true, false_iff]
      omega
  | cons r ranges ih =>
    obtain ⟨lo, hi⟩ := r
    rintro next ⟨hnext, hle, hlt, hrest⟩
    obtain ⟨hordered, hmem⟩ := ih (hi + 1) hrest
    have above := hrest.le
    simp only [UInt32.le_iff_toNat_le, UInt32.lt_iff_toNat_lt, UInt32.reduceToNat] at hnext hle hlt
    have succ : (hi + 1).toNat = hi.toNat + 1 := by
      rw [UInt32.toNat_add]
      simp only [UInt32.reduceToNat]
      omega
    simp only [succ] at hmem above
    rw [gaps]
    split
    · rename_i hgap
      have pred : (lo - 1).toNat = lo.toNat - 1 := by
        rw [UInt32.lt_iff_toNat_lt] at hgap
        refine UInt32.toNat_sub_of_le _ _ ?_
        simp only [UInt32.le_iff_toNat_le, UInt32.reduceToNat]
        omega
      rw [UInt32.lt_iff_toNat_lt] at hgap
      refine ⟨List.forall_mem_cons.2 ⟨?_, hordered⟩, fun c => ?_⟩
      · simp only [UInt32.le_iff_toNat_le, pred]
        omega
      · have := above c
        simp only [spanned_cons, Set.mem_union, Set.mem_ofPred_eq, hmem, pred]
        by_cases hc : c ∈ spanned ranges
        · have := this hc
          simp only [hc, not_true_eq_false, and_false, or_false, or_true, iff_false]
          omega
        · simp only [hc, not_false_eq_true, and_true, or_false]
          constructor
          · rintro (h | h)
            all_goals omega
          · rintro ⟨h, h'⟩
            omega
    · rename_i hgap
      rw [UInt32.lt_iff_toNat_lt] at hgap
      refine ⟨hordered, fun c => ?_⟩
      have := above c
      simp only [spanned_cons, Set.mem_union, Set.mem_ofPred_eq, hmem]
      by_cases hc : c ∈ spanned ranges
      · simp [hc]
      · simp only [hc, not_false_eq_true, and_true, or_false]
        omega

/-- The ranges of a shorthand in brackets are in order and cover its characters. -/
theorem insideRanges_spec {e : Char} {set : CharClass} (h : (e, set) ∈ shorthands) :
    spanned (insideRanges set) = set.chars ∧ ∀ r ∈ insideRanges set, r.1 ≤ r.2 := by
  have positive {ranges : Ranges} (hordered : ∀ r ∈ ranges, r.1 ≤ r.2) :
      spanned (insideRanges ⟨false, ranges⟩) = CharClass.chars ⟨false, ranges⟩ ∧
        ∀ r ∈ insideRanges ⟨false, ranges⟩, r.1 ≤ r.2 := ⟨(chars_of_ranges _).symm, hordered⟩
  have negative {ranges : Ranges} (hascending : Ascending 0 ranges) :
      spanned (insideRanges ⟨true, ranges⟩) = CharClass.chars ⟨true, ranges⟩ ∧
        ∀ r ∈ insideRanges ⟨true, ranges⟩, r.1 ≤ r.2 := by
    obtain ⟨hordered, hmem⟩ := gaps_spec ranges 0 hascending
    refine ⟨?_, hordered⟩
    rw [chars_of_negated]
    ext c
    exact (hmem c).trans (by simp)
  simp only [shorthands, List.mem_cons, List.not_mem_nil, or_false, Prod.mk.injEq] at h
  rcases h with ⟨-, rfl⟩ | ⟨-, rfl⟩ | ⟨-, rfl⟩ | ⟨-, rfl⟩ | ⟨-, rfl⟩ | ⟨-, rfl⟩
  · exact positive (by simp [digitRanges])
  · exact negative ⟨by decide, by decide, by decide, trivial⟩
  · exact positive (by simp [wordRanges])
  · exact negative ⟨by decide, by decide, by decide, by decide, by decide, by decide, by decide,
      by decide, by decide, by decide, by decide, by decide, trivial⟩
  · exact positive (by simp [spaceRanges])
  · exact negative ⟨by decide, by decide, by decide, by decide, by decide, by decide, by decide,
      by decide, by decide, by decide, by decide, by decide, by decide, by decide, by decide, trivial⟩

end ConstrainedDecoding.Regex
