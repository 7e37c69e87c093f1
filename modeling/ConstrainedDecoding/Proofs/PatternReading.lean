import ConstrainedDecoding.Proofs.PatternEscapes
import ConstrainedDecoding.Proofs.Patterns

/-!
# Reading classes, quantifiers and groups

The members of a class, a quantifier with its lazy mark, and what opens a group are read exactly where
characters spell them.
-/
namespace ConstrainedDecoding.Regex

theorem Leaves.unique {n : Nat} {α : Type} {outcome : Except Fault (Read n α)} {v w : α} {rest rest' : List Char}
    (h : Leaves outcome v rest) (h' : Leaves outcome w rest') : v = w ∧ rest = rest' := by
  obtain ⟨r, rfl, rfl, rfl⟩ := h
  obtain ⟨rfl, rfl⟩ := leaves_ok.1 h'
  exact ⟨rfl, rfl⟩

/-- Counting what is left among more characters changes nothing. -/
theorem leaves_counted {m n : Nat} {α : Type} {outcome : Except Fault (Read m α)} {v : α} {rest : List Char}
    {h : m ≤ n} : Leaves (outcome.map (·.widen h)) v rest ↔ Leaves outcome v rest :=
  (leaves_map (f := (·.widen h)) id fun _ => ⟨rfl, rfl⟩).trans (by simp)

/-! ## Members of classes -/

section

variable {size : Nat} {first : Bool} {ranges : Ranges} {rest : List Char}

theorem toNat_point {ps : List Char} {n : Nat} (h : Point ps n) : (UInt32.ofNat n).toNat = n :=
  UInt32.toNat_ofNat_of_lt' (Nat.lt_of_le_of_lt h.le (by decide))

/-- Characters are members, and the ranges that are in order have their characters. -/
def SpellsRanges (first : Bool) (ranges : Ranges) (ds : List Char) : Prop :=
  Members first ds (spanned ranges) ∧ ∀ r ∈ ranges, r.1 ≤ r.2

/-- A code point that starts no range is a member by itself. -/
theorem SpellsRanges.single {ps ds : List Char} {lo : Nat} (h : SpellsRanges false ranges ds) (hlo : Point ps lo)
    (hfirst : ps = [']'] → first = true) (hhyphen : ∀ d tail, ds = '-' :: d :: tail → d = ']') :
    SpellsRanges first ((UInt32.ofNat lo, UInt32.ofNat lo) :: ranges) (ps ++ ds) := by
  refine ⟨?_, List.forall_mem_cons.2 ⟨UInt32.le_refl _, h.2⟩⟩
  have hset : {c : Char | lo ≤ c.toNat ∧ c.toNat ≤ lo} = {c | c.toNat = lo} := by
    ext c
    exact ⟨fun h => le_antisymm h.2 h.1, fun h => ⟨h.ge, h.le⟩⟩
  rw [spanned_cons, toNat_point hlo, hset]
  exact .single hlo hfirst hhyphen h.1

/-- Two code points with a hyphen between them are a range. -/
theorem SpellsRanges.range {ps qs ds : List Char} {lo hi : Nat} (h : SpellsRanges false ranges ds) (hlo : Point ps lo)
    (hfirst : ps = [']'] → first = true) (hhi : Point qs hi) (hclose : qs ≠ [']'])
    (hle : UInt32.ofNat lo ≤ UInt32.ofNat hi) :
    SpellsRanges first ((UInt32.ofNat lo, UInt32.ofNat hi) :: ranges) (ps ++ '-' :: (qs ++ ds)) := by
  refine ⟨?_, List.forall_mem_cons.2 ⟨hle, h.2⟩⟩
  rw [UInt32.le_iff_toNat_le, toNat_point hlo, toNat_point hhi] at hle
  rw [spanned_cons, toNat_point hlo, toNat_point hhi]
  exact .range hlo hfirst hhi hclose hle h.1

theorem SpellsRanges.shorthand {e : Char} {set : CharClass} {ds : List Char} (h : SpellsRanges false ranges ds)
    (hset : (e, set) ∈ shorthands) : SpellsRanges first (insideRanges set ++ ranges) ('\\' :: e :: ds) := by
  obtain ⟨hspanned, hordered⟩ := insideRanges_spec hset
  refine ⟨?_, List.forall_mem_append.2 ⟨hordered, h.2⟩⟩
  rw [spanned_append, hspanned]
  exact .shorthand hset h.1

/-- What is read as members are members, and the ranges have their characters. The induction is on the number of
characters, as a range takes two members at once. -/
theorem members_sound : ∀ {cs : List Char} {first : Bool} {ranges : Ranges},
    Leaves (members size first cs) ranges rest → ∃ ds, cs = ds ++ rest ∧ SpellsRanges first ranges ds := by
  suffices ∀ (n : Nat) {cs : List Char} {first : Bool} {ranges : Ranges}, cs.length = n →
      Leaves (members size first cs) ranges rest → ∃ ds, cs = ds ++ rest ∧ SpellsRanges first ranges ds from
    fun {_ _ _} h => this _ rfl h
  intro n
  induction n using Nat.strong_induction_on with
  | _ n ih =>
    rintro cs first ranges rfl h
    match cs with
    | [] => simp [members] at h
    | c :: cs =>
      by_cases hclose : c = ']' ∧ first = false
      · obtain ⟨rfl, rfl⟩ := hclose
        obtain ⟨rfl, rfl⟩ := members_close.1 h
        exact ⟨[']'], rfl, by simpa using Members.close, by simp⟩
      have hc : c = ']' → first = true := fun hc => by simpa [hc] using hclose
      obtain ⟨m, rest₁, hm⟩ := exists_member hc h
      rcases member_leaves.1 hm with ⟨lo, ⟨ps, hps, hlo⟩, rfl⟩ | ⟨e, set, hset, hcs, rfl⟩
      · have hfirst : ps = [']'] → first = true := by
          rintro rfl
          exact hc (List.cons.inj hps).1
        have shorter : rest₁.length < (c :: cs).length := by
          obtain ⟨d, ds, rfl, -⟩ := hlo.exists_cons
          rw [hps, List.length_append, List.length_cons]
          omega
        by_cases hdash : ∃ h after, rest₁ = '-' :: h :: after ∧ h ≠ ']'
        · obtain ⟨d, after, rfl, hd⟩ := hdash
          obtain ⟨hi, rest₂, more, hhi, hle, hmore, rfl⟩ := (members_range hc hm hd).1 h
          obtain ⟨n, ⟨qs, hqs, hn⟩, hcode⟩ | ⟨_, _, _, _, hcode⟩ := member_leaves.1 hhi
          swap
          · cases hcode
          obtain rfl : hi = UInt32.ofNat n := by simpa using hcode
          have hlen : rest₂.length < (c :: cs).length := by
            have := congrArg List.length hqs
            simp only [List.length_cons, List.length_append] at this shorter ⊢
            omega
          obtain ⟨ds, rfl, hds⟩ := ih _ hlen rfl hmore
          refine ⟨ps ++ '-' :: (qs ++ ds), by simp [hps, hqs], hds.range hlo hfirst hn ?_ hle⟩
          rintro rfl
          exact hd (List.cons.inj hqs).1
        · have hnone : ∀ h after, rest₁ = '-' :: h :: after → h = ']' := fun h after heq =>
            not_not.1 fun hne => hdash ⟨h, after, heq, hne⟩
          obtain ⟨more, hmore, rfl⟩ := (members_single hc hm hnone).1 h
          obtain ⟨ds, rfl, hds⟩ := ih _ shorter rfl hmore
          exact ⟨ps ++ ds, by rw [hps, List.append_assoc],
            hds.single hlo hfirst fun d tail heq => hnone d (tail ++ rest) (by simp [heq])⟩
      · obtain ⟨more, hmore, rfl⟩ := (members_shorthand hc hm).1 h
        obtain ⟨ds, rfl, hds⟩ := ih _ (by rw [hcs]; simp) rfl hmore
        exact ⟨'\\' :: e :: ds, hcs, hds.shorthand hset⟩

theorem Members.getLast?_eq {cs : List Char} {S : Set Char} (h : Members first cs S) :
    cs.getLast? = some ']' := by
  induction h with
  | close => rfl
  | shorthand _ _ ih => simp [List.getLast?_cons, ih]
  | range _ _ _ _ _ _ ih => simp [List.getLast?_cons, ih]
  | single _ _ _ _ ih => simp [ih]

variable (size) in
/-- Members are read. -/
theorem members_complete {ds : List Char} {S : Set Char} (h : Members first ds S) (rest : List Char) :
    ∃ ranges, Leaves (members size first (ds ++ rest)) ranges rest ∧ spanned ranges = S := by
  induction h with
  | close => exact ⟨[], members_close.2 ⟨rfl, rfl⟩, spanned_nil⟩
  | @shorthand first e set cs S hset _ ih =>
    obtain ⟨more, hmore, rfl⟩ := ih
    refine ⟨insideRanges set ++ more, ?_, by rw [spanned_append, (insideRanges_spec hset).1]⟩
    have hm : Leaves (member '\\' (e :: (cs ++ rest))) (.shorthand (insideRanges set)) (cs ++ rest) :=
      member_leaves.2 (Or.inr ⟨e, set, hset, rfl, rfl⟩)
    exact (members_shorthand (fun h => absurd h (by decide)) hm).2 ⟨more, hmore, rfl⟩
  | @range first ps m qs n cs S hlo hfirst hhi hne hle _ ih =>
    obtain ⟨more, hmore, rfl⟩ := ih
    obtain ⟨c, ps, rfl, hc⟩ := hlo.exists_cons
    obtain ⟨d, qs, rfl, hd⟩ := hhi.exists_cons
    have hfirst : c = ']' → first = true := fun h => hfirst (by rw [h, hc h])
    have hd : d ≠ ']' := fun h => hne (by rw [h, hd h])
    refine ⟨(UInt32.ofNat m, UInt32.ofNat n) :: more, ?_, by rw [spanned_cons, toNat_point hlo, toNat_point hhi]⟩
    have hm : Leaves (member c (ps ++ '-' :: d :: (qs ++ (cs ++ rest)))) (.code (UInt32.ofNat m))
        ('-' :: d :: (qs ++ (cs ++ rest))) := member_leaves.2 (Or.inl ⟨m, ⟨c :: ps, rfl, hlo⟩, rfl⟩)
    have hm' : Leaves (member d (qs ++ (cs ++ rest))) (.code (UInt32.ofNat n)) (cs ++ rest) :=
      member_leaves.2 (Or.inl ⟨n, ⟨d :: qs, rfl, hhi⟩, rfl⟩)
    rw [show c :: ps ++ '-' :: (d :: qs ++ cs) ++ rest = c :: (ps ++ '-' :: d :: (qs ++ (cs ++ rest))) by simp]
    exact (members_range hfirst hm hd).2 ⟨_, _, more, hm',
      by rwa [UInt32.le_iff_toNat_le, toNat_point hlo, toNat_point hhi], hmore, rfl⟩
  | @single first ps n cs S hlo hfirst hnone hcs ih =>
    obtain ⟨more, hmore, rfl⟩ := ih
    obtain ⟨c, ps, rfl, hc⟩ := hlo.exists_cons
    have hfirst : c = ']' → first = true := fun h => hfirst (by rw [h, hc h])
    refine ⟨(UInt32.ofNat n, UInt32.ofNat n) :: more, ?_, ?_⟩
    · have hm : Leaves (member c (ps ++ (cs ++ rest))) (.code (UInt32.ofNat n)) (cs ++ rest) :=
        member_leaves.2 (Or.inl ⟨n, ⟨c :: ps, rfl, hlo⟩, rfl⟩)
      rw [show c :: ps ++ cs ++ rest = c :: (ps ++ (cs ++ rest)) by simp]
      refine (members_single hfirst hm fun d after heq => ?_).2 ⟨more, hmore, rfl⟩
      -- what follows a dash is still a member or the closing bracket
      have hlast := hcs.getLast?_eq
      match cs with
      | [] => simp at hlast
      | [e] =>
        obtain rfl : e = ']' := by simpa using hlast
        exact absurd (List.cons.inj heq).1 (by decide)
      | e :: f :: cs =>
        obtain ⟨rfl, rfl, -⟩ : e = '-' ∧ f = d ∧ cs ++ rest = after := by simpa using heq
        exact hnone f cs rfl
    · rw [spanned_cons, toNat_point hlo]
      congr 1
      ext c
      exact ⟨fun h => le_antisymm h.2 h.1, fun h => ⟨h.ge, h.le⟩⟩

end

/-! ## Quantifiers -/

section

variable {size n v : Nat} {cs rest : List Char}

/-- What follows a number that is read is no digit. -/
def NoDigit (rest : List Char) : Prop := rest.head?.any Char.isDigit = false

/-- A digit in front is among those that are read, since none follows them. -/
theorem exists_eq_cons_of_isDigit {c : Char} {ds : List Char} (hc : c.isDigit = true)
    (hds : c :: cs = ds ++ rest) (hrest : NoDigit rest) : ∃ es, ds = c :: es ∧ cs = es ++ rest := by
  cases ds with
  | nil =>
    obtain rfl : c :: cs = rest := hds
    simp [NoDigit, hc] at hrest
  | cons d ds =>
    obtain ⟨rfl, rfl⟩ := List.cons.inj hds
    exact ⟨ds, rfl, rfl⟩

theorem digits_leaves : ∀ {cs : List Char} {n v : Nat}, n ≤ timesLimit →
    (Leaves (digits n cs) v rest ↔ ∃ ds, cs = ds ++ rest ∧ (∀ d ∈ ds, d.isDigit = true) ∧
      Nat.ofDigitChars 10 ds n = v ∧ v ≤ timesLimit ∧ NoDigit rest) := by
  intro cs
  induction cs with
  | nil =>
    intro n v hn
    simp only [digits, leaves_ok, Read.keep]
    constructor
    · rintro ⟨rfl, rfl⟩
      exact ⟨[], rfl, by simp, rfl, hn, rfl⟩
    · rintro ⟨ds, hds, -, rfl, -⟩
      obtain ⟨rfl, rfl⟩ := List.append_eq_nil_iff.1 hds.symm
      exact ⟨rfl, rfl⟩
  | cons c cs ih =>
    intro n v hn
    rw [digits]
    split
    · rename_i hc
      dsimp only
      split
      · rename_i hlarge
        simp only [not_leaves_error, false_iff]
        rintro ⟨ds, hds, -, hv, hle, hrest⟩
        obtain ⟨es, rfl, -⟩ := exists_eq_cons_of_isDigit hc hds hrest
        rw [ofDigitChars_cons_place] at hv
        exact absurd (((le_ofDigitChars es _).trans hv.le).trans hle) (Nat.not_le.2 hlarge)
      · rename_i hsmall
        rw [leaves_after, ih (Nat.not_lt.1 hsmall)]
        constructor
        · rintro ⟨ds, rfl, hall, hv, hle, hrest⟩
          exact ⟨c :: ds, rfl, List.forall_mem_cons.2 ⟨hc, hall⟩, by rw [ofDigitChars_cons_place, hv], hle, hrest⟩
        · rintro ⟨ds, hds, hall, hv, hle, hrest⟩
          obtain ⟨es, rfl, hes⟩ := exists_eq_cons_of_isDigit hc hds hrest
          exact ⟨es, hes, (List.forall_mem_cons.1 hall).2, by rw [← ofDigitChars_cons_place, hv], hle, hrest⟩
    · rename_i hc
      simp only [leaves_ok, Read.keep]
      constructor
      · rintro ⟨rfl, rfl⟩
        exact ⟨[], rfl, by simp, rfl, hn, by simp [NoDigit, hc]⟩
      · rintro ⟨ds, hds, hall, hv, -⟩
        cases ds with
        | nil => exact ⟨hv, hds⟩
        | cons d ds =>
          obtain ⟨rfl, -⟩ := List.cons.inj hds
          exact absurd (hall _ List.mem_cons_self) hc

theorem count_leaves : Leaves (count size cs) v rest ↔
    ∃ ds, cs = ds ++ rest ∧ Digits ds v ∧ NoDigit rest := by
  rw [count]
  split
  · rename_i hc
    rw [digits_leaves (Nat.zero_le _)]
    constructor
    · rintro ⟨ds, rfl, hall, hv, hle, hrest⟩
      refine ⟨ds, rfl, ⟨?_, hall, hv, hle⟩, hrest⟩
      rintro rfl
      exact absurd hc (by simpa [NoDigit] using hrest)
    · rintro ⟨ds, rfl, ⟨-, hall, hv, hle⟩, hrest⟩
      exact ⟨ds, rfl, hall, hv, hle, hrest⟩
  · rename_i hc
    simp only [not_leaves_error, false_iff]
    rintro ⟨ds, rfl, ⟨hne, hall, -⟩, -⟩
    cases ds with
    | nil => exact hne rfl
    | cons d ds => simp [hall d] at hc

/-- A closing brace ends a quantifier whose bounds are in order. -/
theorem closeBrace_leaves {q q' : Quantifier} : Leaves (closeBrace size q cs) q' rest ↔
    cs = '\x7d' :: rest ∧ q' = q ∧ ∀ least most, q = .range least (some most) → least ≤ most := by
  unfold closeBrace
  split
  · rename_i cs
    split
    · rename_i least most
      split
      · rename_i hlt
        simp only [not_leaves_error, false_iff]
        rintro ⟨-, -, hle⟩
        exact absurd (hle _ _ rfl) (Nat.not_le.2 hlt)
      · rename_i hle
        simp only [leaves_ok, Read.skip]
        constructor
        · rintro ⟨rfl, rfl⟩
          exact ⟨rfl, rfl, by rintro _ _ ⟨⟩; exact Nat.not_lt.1 hle⟩
        · rintro ⟨⟨⟩, rfl, -⟩
          exact ⟨rfl, rfl⟩
    · rename_i hq
      simp only [leaves_ok, Read.skip]
      constructor
      · rintro ⟨rfl, rfl⟩
        exact ⟨rfl, rfl, fun least most h => absurd h (hq least most)⟩
      · rintro ⟨⟨⟩, rfl, -⟩
        exact ⟨rfl, rfl⟩
  · rename_i hcs
    simp only [not_leaves_error, false_iff]
    rintro ⟨rfl, -⟩
    exact hcs rest rfl

/-- The forms of a repetition after its opening brace, with the quantifiers that they stand for. -/
inductive Braced : List Char → Quantifier → Prop
  | exactly {ds n} : Digits ds n → Braced (ds ++ ['\x7d']) (.range n (some n))
  | atLeast {ds n} : Digits ds n → Braced (ds ++ [',', '\x7d']) (.range n none)
  | between {ds m es n} : Digits ds m → Digits es n → m ≤ n →
      Braced (ds ++ ',' :: (es ++ ['\x7d'])) (.range m (some n))

theorem noDigit_cons {c : Char} (hc : c.isDigit = false) (cs : List Char) : NoDigit (c :: cs) := by
  simp [NoDigit, hc]

/-- After the first count there is the closing brace, with a comma before it or not, or a comma and
the second count. -/
theorem repetition_of_count {q : Quantifier} {rest₁ : List Char} (h : Leaves (count size cs) n rest₁) :
    Leaves (repetition size cs) q rest ↔ (rest₁ = ',' :: '\x7d' :: rest ∧ q = .range n none) ∨
      (∃ rest₂ m rest₃, rest₁ = ',' :: rest₂ ∧ Leaves (count size rest₂) m rest₃ ∧
        Leaves (closeBrace size (.range n (some m)) rest₃) q rest) ∨
      Leaves (closeBrace size (.range n (some n)) rest₁) q rest := by
  obtain ⟨⟨n, rest₁, hle⟩, hcount, rfl, rfl⟩ := h
  have comma {q' : Quantifier} {cs : List Char} : ¬ Leaves (closeBrace size q' (',' :: cs)) q rest := by
    simp [closeBrace_leaves]
  have brace {cs rest₃ : List Char} {m : Nat} : ¬ Leaves (count size ('\x7d' :: cs)) m rest₃ := by
    simp [count]
  unfold repetition
  simp only [hcount]
  split
  · rename_i rest₂
    simp only [leaves_ok, comma, or_false]
    constructor
    · rintro ⟨rfl, rfl⟩
      exact Or.inl ⟨rfl, rfl⟩
    · rintro (⟨⟨⟩, rfl⟩ | ⟨_, _, _, ⟨⟩, h, -⟩)
      · exact ⟨rfl, rfl⟩
      · exact absurd h brace
  · rename_i rest₂ hne
    have hopen : ¬ (',' :: rest₂ = ',' :: '\x7d' :: rest ∧ q = .range n none) :=
      fun h => hne rest (List.cons.inj h.1).2
    rw [or_iff_right hopen, or_iff_left comma]
    cases hm : count size rest₂ with
    | error fault =>
      simp only [not_leaves_error, false_iff]
      rintro ⟨_, _, _, ⟨⟩, h, -⟩
      simp [hm] at h
    | ok r =>
      dsimp only
      rw [leaves_counted]
      constructor
      · exact fun h => ⟨rest₂, _, _, rfl, ⟨r, hm, rfl, rfl⟩, h⟩
      · rintro ⟨_, _, _, ⟨⟩, h, h'⟩
        obtain ⟨rfl, rfl⟩ := leaves_ok.1 (hm ▸ h)
        exact h'
  · rename_i hnone hcomma
    have hopen : ¬ (rest₁ = ',' :: '\x7d' :: rest ∧ q = .range n none) := fun h => hnone rest h.1
    have hsecond : ¬ ∃ rest₂ m rest₃, rest₁ = ',' :: rest₂ ∧ Leaves (count size rest₂) m rest₃ ∧
        Leaves (closeBrace size (.range n (some m)) rest₃) q rest := by
      rintro ⟨rest₂, _, _, h, -⟩
      exact hcomma rest₂ h
    rw [or_iff_right hopen, or_iff_right hsecond, leaves_counted]

theorem repetition_leaves {q : Quantifier} : Leaves (repetition size cs) q rest ↔
    ∃ ds, cs = ds ++ rest ∧ Braced ds q := by
  constructor
  · intro h
    obtain ⟨n, rest₁, hcount⟩ : ∃ n rest₁, Leaves (count size cs) n rest₁ := by
      unfold repetition at h
      cases hc : count size cs with
      | error fault => simp [hc] at h
      | ok r => exact ⟨_, _, r, rfl, rfl, rfl⟩
    obtain ⟨ds, rfl, hds, -⟩ := count_leaves.1 hcount
    rcases (repetition_of_count hcount).1 h with ⟨rfl, rfl⟩ | ⟨rest₂, m, rest₃, rfl, hm, hclose⟩ | hclose
    · exact ⟨_, by simp, .atLeast hds⟩
    · obtain ⟨es, rfl, hes, -⟩ := count_leaves.1 hm
      obtain ⟨rfl, rfl, hle⟩ := closeBrace_leaves.1 hclose
      exact ⟨_, by simp, .between hds hes (hle _ _ rfl)⟩
    · obtain ⟨rfl, rfl, -⟩ := closeBrace_leaves.1 hclose
      exact ⟨_, by simp, .exactly hds⟩
  · rintro ⟨_, rfl, h⟩
    have comma (cs : List Char) := noDigit_cons (c := ',') rfl cs
    have brace (cs : List Char) := noDigit_cons (c := '\x7d') rfl cs
    cases h with
    | @exactly ds n hds =>
      rw [List.append_assoc]
      refine (repetition_of_count (count_leaves.2 ⟨ds, rfl, hds, brace _⟩)).2 (Or.inr (Or.inr ?_))
      exact closeBrace_leaves.2 ⟨rfl, rfl, by rintro _ _ ⟨⟩; exact le_rfl⟩
    | @atLeast ds n hds =>
      rw [List.append_assoc]
      exact (repetition_of_count (count_leaves.2 ⟨ds, rfl, hds, comma _⟩)).2 (Or.inl ⟨rfl, rfl⟩)
    | @between ds m es n hds hes hle =>
      rw [show ds ++ ',' :: (es ++ ['\x7d']) ++ rest = ds ++ ',' :: (es ++ '\x7d' :: rest) by simp]
      refine (repetition_of_count (count_leaves.2 ⟨ds, rfl, hds, comma _⟩)).2 (Or.inr (Or.inl ⟨_, _, _, rfl,
        count_leaves.2 ⟨es, rfl, hes, brace _⟩, closeBrace_leaves.2 ⟨rfl, rfl, ?_⟩⟩))
      rintro _ _ ⟨⟩
      exact hle

/-- After an opening brace and a digit there is a quantifier. -/
theorem quantifier_brace {found : Option Quantifier} (hdigit : cs.head?.any Char.isDigit = true) :
    Leaves (quantifier size ('\x7b' :: cs)) found rest ↔
      ∃ q, (∃ ds, cs = ds ++ rest ∧ Braced ds q) ∧ some q = found := by
  unfold quantifier
  simp only [hdigit, if_true]
  rw [leaves_map some fun _ => ⟨rfl, rfl⟩]
  simp only [repetition_leaves]

theorem Braced.head {ds : List Char} {q : Quantifier} (h : Braced ds q) (rest : List Char) :
    (ds ++ rest).head?.any Char.isDigit = true := by
  have digits {ds : List Char} {n : Nat} (h : Digits ds n) (rest : List Char) :
      (ds ++ rest).head?.any Char.isDigit = true := by
    obtain ⟨hne, hall, -⟩ := h
    cases ds with
    | nil => exact absurd rfl hne
    | cons d ds => simp [hall d]
  cases h <;>
    · rw [List.append_assoc]
      exact digits ‹_› _

/-- What stands after an opening brace asks for what its quantifier asks for. -/
theorem Braced.times {ds : List Char} {q : Quantifier} (h : Braced ds q) :
    Times ('\x7b' :: ds) q.least q.most ∧ q.toEbnf.Fits := by
  rw [Ebnf.Quantifier.Fits, q.bounds_toEbnf.1, q.bounds_toEbnf.2]
  have limit {ds : List Char} {n : Nat} (h : Digits ds n) : n ≤ Ebnf.Quantifier.limit := h.2.2.2
  cases h with
  | exactly h => exact ⟨.exactly h, limit h, by rintro _ ⟨⟩; exact ⟨le_rfl, limit h⟩⟩
  | atLeast h => exact ⟨.atLeast h, limit h, nofun⟩
  | between h h' hle => exact ⟨.between h h' hle, limit h, by rintro _ ⟨⟩; exact ⟨hle, limit h'⟩⟩

/-- A quantifier that is read is spelled, and its bounds can be read again. -/
theorem quantifier_sound {q : Quantifier} (h : Leaves (quantifier size cs) (some q) rest) :
    ∃ qs, cs = qs ++ rest ∧ Times qs q.least q.most ∧ q.toEbnf.Fits := by
  by_cases hstarts : StartsCount cs
  · obtain ⟨d, cs, rfl, hd⟩ := hstarts
    obtain ⟨q', ⟨ds, hds, hbraced⟩, ⟨⟩⟩ := (quantifier_brace (by simp [hd])).1 h
    exact ⟨'\x7b' :: ds, by rw [hds]; rfl, hbraced.times⟩
  · unfold quantifier at h
    split at h
    · obtain ⟨⟨⟩, rfl⟩ := leaves_ok.1 h
      exact ⟨['*'], rfl, .star, Ebnf.Quantifier.fits_star⟩
    · obtain ⟨⟨⟩, rfl⟩ := leaves_ok.1 h
      exact ⟨['+'], rfl, .plus, Ebnf.Quantifier.fits_plus⟩
    · obtain ⟨⟨⟩, rfl⟩ := leaves_ok.1 h
      exact ⟨['?'], rfl, .question, Ebnf.Quantifier.fits_question⟩
    · rename_i cs
      split at h
      · rename_i hdigit
        cases cs with
        | nil => simp at hdigit
        | cons d cs => exact absurd ⟨d, cs, rfl, by simpa using hdigit⟩ hstarts
      · exact nomatch (leaves_ok.1 h).1
    · exact nomatch (leaves_ok.1 h).1

variable (size) in
/-- A quantifier that is spelled is read. -/
theorem quantifier_complete {qs : List Char} {least : Nat} {most : Option Nat} (h : Times qs least most)
    (rest : List Char) : ∃ q, Leaves (quantifier size (qs ++ rest)) (some q) rest ∧
      q.least = least ∧ q.most = most := by
  have braced {ds : List Char} {q : Quantifier} (hds : Braced ds q) :
      Leaves (quantifier size ('\x7b' :: ds ++ rest)) (some q) rest :=
    (quantifier_brace (hds.head rest)).2 ⟨q, ⟨ds, rfl, hds⟩, rfl⟩
  cases h with
  | star => exact ⟨.star, leaves_ok.2 ⟨rfl, rfl⟩, rfl, rfl⟩
  | plus => exact ⟨.plus, leaves_ok.2 ⟨rfl, rfl⟩, rfl, rfl⟩
  | question => exact ⟨.question, leaves_ok.2 ⟨rfl, rfl⟩, rfl, rfl⟩
  | exactly h => exact ⟨_, braced (.exactly h), rfl, rfl⟩
  | atLeast h => exact ⟨_, braced (.atLeast h), rfl, rfl⟩
  | between h h' hle => exact ⟨_, braced (.between h h' hle), rfl, rfl⟩

/-- No quantifier is read where none starts. -/
theorem quantifier_none : Leaves (quantifier size cs) none rest ↔
    cs = rest ∧ ¬ StartsCount cs ∧ ∀ c ∈ cs.head?, c ∉ ['*', '+', '?'] := by
  unfold quantifier
  split
  · simp [Read.skip]
  · simp [Read.skip]
  · simp [Read.skip]
  · rename_i cs
    split
    · rename_i hdigit
      have hstarts : StartsCount ('\x7b' :: cs) := by
        cases cs with
        | nil => simp at hdigit
        | cons d cs => exact ⟨d, cs, rfl, by simpa using hdigit⟩
      rw [leaves_map some fun _ => ⟨rfl, rfl⟩]
      simp [hstarts]
    · rename_i hdigit
      have hstarts : ¬ StartsCount ('\x7b' :: cs) := by
        rintro ⟨d, _, ⟨⟩, hd⟩
        exact hdigit (by simp [hd])
      simp [Read.keep, hstarts]
  · rename_i hstar hplus hquestion hbrace
    have hstarts : ¬ StartsCount cs := by
      rintro ⟨d, _, rfl, -⟩
      exact hbrace _ rfl
    have hhead : ∀ c ∈ cs.head?, c ∉ ['*', '+', '?'] := by
      cases cs with
      | nil => simp
      | cons c cs =>
        rintro _ ⟨⟩ hc
        fin_cases hc
        · exact hstar _ rfl
        · exact hplus _ rfl
        · exact hquestion _ rfl
    simp only [leaves_ok, Read.keep, true_and, hstarts, not_false_eq_true]
    exact ⟨fun h => ⟨h, hhead⟩, fun h => h.1⟩

/-! A quantifier is put on the atom before it. -/

variable {p p' : Pattern}

theorem quantify_of_none {rest₁ : List Char} (h : Leaves (quantifier size cs) none rest₁) :
    Leaves (quantify size p cs) p' rest ↔ p = p' ∧ rest₁ = rest := by
  obtain ⟨⟨_, _, hle⟩, hq, rfl, rfl⟩ := h
  simp [quantify, hq, Read.map]

/-- The lazy mark of a quantifier is taken, and no other quantifier may follow. -/
theorem quantify_of_some {q : Quantifier} {rest₁ : List Char} (h : Leaves (quantifier size cs) (some q) rest₁) :
    Leaves (quantify size p cs) p' rest ↔ p' = .quantified p q ∧
      ∃ mark ∈ [[], ['?']], rest₁ = mark ++ rest ∧ ∀ c ∈ rest.head?, c ∉ ['*', '+', '?'] := by
  obtain ⟨⟨_, rest₁, hle⟩, hq, rfl, rfl⟩ := h
  -- the outcome, once it is known what is left after the mark
  have outcome {rest₂ : List Char} {hle : rest₂.length ≤ cs.length} :
      Leaves (if rest₂.head?.any (· ∈ ['*', '+', '?']) then .error (.consecutiveQuantifiers (size - rest₂.length))
        else .ok ⟨.quantified p q, rest₂, hle⟩ : Except Fault (Read cs.length Pattern)) p' rest ↔
          p' = .quantified p q ∧ rest₂ = rest ∧ ∀ c ∈ rest.head?, c ∉ ['*', '+', '?'] := by
    split
    · rename_i hany
      simp only [not_leaves_error, false_iff]
      rintro ⟨-, rfl, hnone⟩
      obtain ⟨c, hc, hmem⟩ := (Option.any_eq_true _ _).1 hany
      exact hnone c hc (by simpa using hmem)
    · rename_i hany
      rw [leaves_ok]
      constructor
      · rintro ⟨rfl, rfl⟩
        refine ⟨rfl, rfl, fun c hc hmem => hany ?_⟩
        exact (Option.any_eq_true _ _).2 ⟨c, hc, by simpa using hmem⟩
      · rintro ⟨rfl, rfl, -⟩
        exact ⟨rfl, rfl⟩
  unfold quantify
  simp only [hq]
  split
  · rename_i rest₂
    refine outcome.trans (and_congr_right fun _ => ?_)
    constructor
    · rintro ⟨rfl, hhead⟩
      exact ⟨['?'], by simp, rfl, hhead⟩
    · rintro ⟨mark, hmark, hrest, hhead⟩
      rcases List.mem_pair.1 hmark with rfl | rfl
      · exact absurd (by simp) (hhead '?' (by rw [← List.nil_append rest, ← hrest]; rfl))
      · exact ⟨(List.cons.inj hrest).2, hhead⟩
  · rename_i hmark
    refine outcome.trans (and_congr_right fun _ => ?_)
    constructor
    · rintro ⟨rfl, hhead⟩
      exact ⟨[], by simp, rfl, hhead⟩
    · rintro ⟨mark, hmem, hrest, hhead⟩
      rcases List.mem_pair.1 hmem with rfl | rfl
      · exact ⟨hrest, hhead⟩
      · exact absurd hrest (hmark rest)

theorem quantify_sound (h : Leaves (quantify size p cs) p' rest) : (p' = p ∧ cs = rest ∧ ¬ StartsCount cs) ∨
    ∃ q qs, ∃ mark ∈ [[], ['?']], cs = qs ++ (mark ++ rest) ∧ Times qs q.least q.most ∧ q.toEbnf.Fits ∧
      p' = .quantified p q := by
  cases hq : quantifier size cs with
  | error fault => simp [quantify, hq] at h
  | ok r =>
    have hr : Leaves (quantifier size cs) r.value r.rest := ⟨r, hq, rfl, rfl⟩
    cases hvalue : r.value with
    | none =>
      rw [hvalue] at hr
      obtain ⟨rfl, hrest⟩ := (quantify_of_none hr).1 h
      obtain ⟨hcs, hstarts, -⟩ := quantifier_none.1 hr
      exact Or.inl ⟨rfl, hcs.trans hrest, hstarts⟩
    | some q =>
      rw [hvalue] at hr
      obtain ⟨rfl, mark, hmark, hrest, -⟩ := (quantify_of_some hr).1 h
      obtain ⟨qs, hqs, htimes, hfits⟩ := quantifier_sound hr
      exact Or.inr ⟨q, qs, mark, hmark, by rw [hqs, hrest], htimes, hfits, rfl⟩

theorem quantify_none (hstarts : ¬ StartsCount cs) (hhead : ∀ c ∈ cs.head?, c ∉ ['*', '+', '?']) :
    Leaves (quantify size p cs) p cs :=
  (quantify_of_none (quantifier_none.2 ⟨rfl, hstarts, hhead⟩)).2 ⟨rfl, rfl⟩

variable (size p) in
theorem quantify_complete {qs mark : List Char} {least : Nat} {most : Option Nat} (h : Times qs least most)
    (hmark : mark ∈ [[], ['?']]) (hhead : ∀ c ∈ rest.head?, c ∉ ['*', '+', '?']) :
    ∃ q, Leaves (quantify size p (qs ++ (mark ++ rest))) (.quantified p q) rest ∧ q.least = least ∧ q.most = most := by
  obtain ⟨q, hq, hleast, hmost⟩ := quantifier_complete size h (mark ++ rest)
  exact ⟨q, (quantify_of_some hq).2 ⟨rfl, mark, hmark, rfl, hhead⟩, hleast, hmost⟩

end

/-! ## Groups -/

section

variable {rest : List Char}

theorem groupName_leaves : ∀ {cs : List Char}, Leaves (groupName cs) () rest ↔
    ∃ name, cs = name ++ '>' :: rest ∧ '>' ∉ name := by
  intro cs
  induction cs with
  | nil => simp [groupName]
  | cons c cs ih =>
    rw [groupName]
    split
    · rename_i hc
      subst hc
      rw [exists_before_self fun _ h => h]
      simp [Read.skip]
    · rename_i hc
      rw [leaves_after, ih, exists_before_of_ne hc]
      simp [Ne.symm hc]

/-- What opens a group, and what comes after it. -/
theorem opened_iff {cs : List Char} : (∃ head, cs = head ++ rest ∧ GroupHead head ∧ (head = [] → rest.head? ≠ some '?')) ↔
    (cs = rest ∧ rest.head? ≠ some '?') ∨ cs = '?' :: ':' :: rest ∨
      ∃ name, cs = '?' :: '<' :: (name ++ '>' :: rest) ∧ '>' ∉ name ∧ ∀ c ∈ name.head?, c ≠ '=' ∧ c ≠ '!' := by
  constructor
  · rintro ⟨head, rfl, h, hfree⟩
    cases h with
    | capturing => exact Or.inl ⟨rfl, hfree rfl⟩
    | plain => exact Or.inr (Or.inl rfl)
    | @named name hname hlook => exact Or.inr (Or.inr ⟨name, by simp, hname, hlook⟩)
  · rintro (⟨rfl, hfree⟩ | rfl | ⟨name, rfl, hname, hlook⟩)
    · exact ⟨[], rfl, .capturing, fun _ => hfree⟩
    · exact ⟨['?', ':'], rfl, .plain, fun h => absurd h (List.cons_ne_nil _ _)⟩
    · exact ⟨'?' :: '<' :: (name ++ ['>']), by simp, .named hname hlook, fun h => absurd h (List.cons_ne_nil _ _)⟩

/-- The characters that would begin another group can be seen before the name is read. -/
theorem mem_head?_append_stop {name : List Char} {c : Char} (hc : c ∈ ['=', '!']) :
    c ∈ (name ++ '>' :: rest).head? ↔ c ∈ name.head? := by
  cases name with
  | nil =>
    simp only [List.nil_append, List.head?_cons, List.head?_nil, Option.mem_def, Option.some.injEq, reduceCtorEq,
      iff_false]
    rintro rfl
    revert hc
    decide
  | cons => simp

/-- A group is opened where characters spell it; nothing does so before a question mark. -/
theorem groupHead_leaves {cs : List Char} : Leaves (groupHead cs) () rest ↔
    ∃ head, cs = head ++ rest ∧ GroupHead head ∧ (head = [] → rest.head? ≠ some '?') := by
  rw [opened_iff]
  unfold groupHead
  split
  · simp only [not_leaves_error, false_iff]
    rintro (⟨rfl, h⟩ | h | ⟨name, h, -⟩) <;> simp at h
  · rename_i cs
    simp only [leaves_ok, true_and]
    constructor
    · rintro rfl
      exact Or.inr (Or.inl rfl)
    · rintro (⟨rfl, h⟩ | h | ⟨name, h, -⟩)
      · simp at h
      · simpa using h
      · simp at h
  · rename_i cs
    have named : (('?' :: '<' :: cs = rest ∧ rest.head? ≠ some '?') ∨ '?' :: '<' :: cs = '?' :: ':' :: rest ∨
        ∃ name, '?' :: '<' :: cs = '?' :: '<' :: (name ++ '>' :: rest) ∧ '>' ∉ name ∧
          ∀ c ∈ name.head?, c ≠ '=' ∧ c ≠ '!') ↔
        ∃ name, cs = name ++ '>' :: rest ∧ '>' ∉ name ∧ ∀ c ∈ name.head?, c ≠ '=' ∧ c ≠ '!' := by
      rw [or_iff_right (by rintro ⟨rfl, h⟩; simp at h), or_iff_right (by simp)]
      simp only [List.cons_inj_right]
    rw [named]
    split
    · rename_i hlook
      simp only [not_leaves_error, false_iff]
      rintro ⟨name, rfl, -, hnone⟩
      obtain ⟨c, hc, hmem⟩ := (Option.any_eq_true _ _).1 hlook
      have hmem : c ∈ ['=', '!'] := by simpa using hmem
      have := hnone c ((mem_head?_append_stop hmem).1 hc)
      simp [this] at hmem
    · rename_i hlook
      rw [leaves_counted, groupName_leaves]
      refine exists_congr fun name => and_congr_right ?_
      rintro rfl
      refine (and_iff_left fun c hc => ?_).symm
      have : c ∉ ['=', '!'] := fun hmem =>
        hlook ((Option.any_eq_true _ _).2 ⟨c, (mem_head?_append_stop hmem).2 hc, by simpa using hmem⟩)
      simpa using this
  · rename_i c cs hplain hname
    refine iff_of_false (by split <;> simp) ?_
    rintro (⟨rfl, h⟩ | h | ⟨name, h, -⟩)
    · simp at h
    · exact hplain (List.cons.inj (List.cons.inj h).2).1
    · exact hname (List.cons.inj (List.cons.inj h).2).1
  · rename_i hend hplain hname hother
    simp only [leaves_ok, Read.keep, true_and]
    constructor
    · rintro rfl
      refine Or.inl ⟨rfl, fun hhead => ?_⟩
      rcases cs with _ | ⟨c, _ | ⟨d, cs⟩⟩
      · cases hhead
      · exact hend (by simpa using hhead)
      · obtain rfl : c = '?' := by simpa using hhead
        exact hother d cs rfl
    · rintro (⟨rfl, -⟩ | rfl | ⟨name, rfl, -⟩)
      · rfl
      · exact absurd rfl (hother ':' rest)
      · exact absurd rfl (hother '<' _)

end

end ConstrainedDecoding.Regex
