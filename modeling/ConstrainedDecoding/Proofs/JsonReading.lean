import ConstrainedDecoding.Json.Printer
import ConstrainedDecoding.Json.Reader
import ConstrainedDecoding.Proofs.Encodings
import ConstrainedDecoding.Proofs.Folds

/-!
# JSON values that are read back

The text of a value is read as the value, as long as its numbers are whole and fit 64 bits, no key stands
twice in an object, and not too many containers are open at once. The reader stops where the text of the
value ends, so the values inside a container are read one after the other.
-/
namespace ConstrainedDecoding.Json

/-! ## Strings -/

theorem shortEscapes : shortEscape? '"' = some '"' ∧ shortEscape? '\\' = some '\\' ∧
    shortEscape? 'b' = some '\x08' ∧ shortEscape? 'f' = some '\x0c' ∧ shortEscape? 'n' = some '\n' ∧
    shortEscape? 'r' = some '\r' ∧ shortEscape? 't' = some '\t' := by decide

/-- The digits of a number of at most four hexadecimal digits. -/
theorem exists_hexQuad {n : Nat} (h : n < 16 ^ 4) :
    ∃ a b c d, (Text.hex 4 n).toList = [a, b, c, d] ∧ hexQuad? a b c d = some n := by
  obtain ⟨a, b, c, d, heq⟩ := List.length_eq_four.1 (Text.length_hex (by decide) h)
  refine ⟨a, b, c, d, heq, ?_⟩
  have hhex : [a, b, c, d].all Text.isHex = true := List.all_eq_true.2 (heq ▸ Text.isHex_of_mem_hex)
  rw [hexQuad?, if_pos hhex, ← heq, Text.hexNumber_hex]

/-- A character is read back from how it stands in a string. -/
theorem readString_stringChar (done : List Char) (c : Char) (rest : List Char) :
    readString done ((stringChar c).toList ++ rest) = readString (c :: done) rest := by
  have short {e c : Char} (he : e ≠ 'u') (hc : shortEscape? e = some c) :
      readString done ('\\' :: e :: rest) = readString (c :: done) rest := by
    rw [readString]
    · simp [hc]
    · rintro _ _ _ _ _ rfl
      exact absurd rfl he
  obtain ⟨hquote, hbackslash, hb, hf, hn, hr, ht⟩ := shortEscapes
  unfold stringChar
  split_ifs with h₁ h₂ h₃ h₄ h₅ h₆ h₇ hlt
  · exact h₁ ▸ short (by decide) hquote
  · exact h₂ ▸ short (by decide) hbackslash
  · exact h₃ ▸ short (by decide) hb
  · exact h₄ ▸ short (by decide) hf
  · exact h₅ ▸ short (by decide) hn
  · exact h₆ ▸ short (by decide) hr
  · exact h₇ ▸ short (by decide) ht
  · obtain ⟨a, b, c', d, heq, hquad⟩ := exists_hexQuad (hlt.trans (by decide))
    have text : ("\\u" ++ Text.hex 4 c.toNat).toList ++ rest = '\\' :: 'u' :: a :: b :: c' :: d :: rest := by
      rw [String.toList_append, heq]
      rfl
    rw [text, readString]
    simp only [hquad]
    rw [if_neg (by omega), if_neg (by omega), Char.ofNat_toNat]
  · have text : c.toString.toList ++ rest = c :: rest := by simp
    rw [text, readString]
    · rw [if_neg hlt]
    · exact fun h => h₁ h
    · rintro _ _ _ _ _ rfl
      exact absurd rfl h₂
    · rintro _ _ rfl
      exact absurd rfl h₂

/-- The characters of a text as they stand in a string. -/
def stringChars (cs : List Char) : List Char := cs.flatMap fun c => (stringChar c).toList

theorem toList_stringText (s : String) : (stringText s).toList = '"' :: (stringChars s.toList ++ ['"']) := by
  rw [stringText, String.toList_append, String.toList_append, String.foldl_eq_foldl_toList, toList_foldl_append]
  rfl

theorem readString_stringChars (cs done rest : List Char) :
    readString done (stringChars cs ++ '"' :: rest) = some (String.ofList (done.reverse ++ cs), rest) := by
  induction cs generalizing done with
  | nil => simp [stringChars, readString]
  | cons c cs ih =>
    rw [stringChars, List.flatMap_cons, List.append_assoc, readString_stringChar]
    refine (ih (c :: done)).trans ?_
    simp

/-- A string is read back from its text. -/
theorem readString_text (s : String) (rest : List Char) :
    readString [] (stringChars s.toList ++ '"' :: rest) = some (s, rest) := by
  rw [readString_stringChars]
  simp

/-! ## Numbers -/

/-- What may follow a value inside a text: nothing, a comma or a closing bracket. -/
def Ends (rest : List Char) : Prop := ∀ c ∈ rest.head?, c ∈ [',', ']', '\x7d']

theorem ends_nil : Ends [] := by simp [Ends]

theorem ends_cons {c : Char} (hc : c ∈ [',', ']', '\x7d']) (rest : List Char) : Ends (c :: rest) := by
  rintro _ ⟨⟩
  exact hc

theorem Ends.head {c : Char} {rest : List Char} (h : Ends (c :: rest)) : c = ',' ∨ c = ']' ∨ c = '\x7d' := by
  simpa using h c rfl

/-- The digits of a number, as numbers. -/
def digitList (n : Nat) : List Nat := (Nat.toDigits 10 n).map fun c => c.toNat - 48

theorem digits_toDigits (n : Nat) {rest : List Char} (h : Ends rest) :
    digits (Nat.toDigits 10 n ++ rest) = (digitList n, rest) := by
  have inside : ∀ c ∈ Nat.toDigits 10 n, c.isDigit = true :=
    fun c hc => Nat.isDigit_of_mem_toDigits (by decide) (by decide) hc
  have after : ∀ c ∈ rest.head?, c.isDigit = false := by
    intro c hc
    have : c = ',' ∨ c = ']' ∨ c = '\x7d' := by simpa using h c hc
    rcases this with rfl | rfl | rfl <;> decide
  have taken : (Nat.toDigits 10 n ++ rest).takeWhile Char.isDigit = Nat.toDigits 10 n := by
    rw [List.takeWhile_append_of_pos inside]
    cases rest with
    | nil => simp
    | cons c rest => simp [after c rfl]
  have dropped : (Nat.toDigits 10 n ++ rest).dropWhile Char.isDigit = rest := by
    rw [List.dropWhile_append_of_pos inside]
    cases rest with
    | nil => simp
    | cons c rest => simp [after c rfl]
  rw [digits, taken, dropped, digitList]

theorem exists_toDigits {n : Nat} (h : n ≠ 0) : ∃ c cs, Nat.toDigits 10 n = c :: cs ∧ c ≠ '0' := by
  induction n using Nat.strongRecOn with
  | ind n ih =>
    rw [Nat.toDigits_eq_if (by decide)]
    split
    · rename_i hlt
      refine ⟨_, _, rfl, ?_⟩
      interval_cases n <;> simp_all
    · obtain ⟨c, cs, heq, hc⟩ := ih (n / 10) (by omega) (by omega)
      exact ⟨c, cs ++ [(n % 10).digitChar], by rw [heq]; rfl, hc⟩

/-- Digits have no leading zero, unless there is no other. -/
theorem digitList_proper (n : Nat) :
    digitList n ≠ [] ∧ ¬ ((digitList n).head? = some 0 ∧ (digitList n).length ≠ 1) := by
  rcases eq_or_ne n 0 with rfl | hne
  · decide
  · obtain ⟨c, cs, heq, hc⟩ := exists_toDigits hne
    have hdigit : c.isDigit = true :=
      Nat.isDigit_of_mem_toDigits (b := 10) (n := n) (by decide) (by decide) (by simp [heq])
    refine ⟨by simp [digitList, heq], fun h => hc ?_⟩
    have hzero := h.1
    simp only [digitList, heq, List.map_cons, List.head?_cons, Option.some.injEq] at hzero
    simp only [Char.isDigit, Bool.and_eq_true, decide_eq_true_eq, ge_iff_le, UInt32.le_iff_toNat_le] at hdigit
    rw [← Char.toNat_inj]
    change c.toNat = 48
    have : 48 ≤ c.toNat := hdigit.1
    omega

/-- Digits are all appended if the number that they spell fits. -/
theorem appendDigits_of_lt {ds : List Nat} : ∀ {m : Nat},
    ds.foldl (fun n d => n * 10 + d) m < 0x10000000000000000 →
      appendDigits m ds = (ds.foldl (fun n d => n * 10 + d) m, ds.length, 0) := by
  have le_foldl (ds : List Nat) : ∀ m, m ≤ ds.foldl (fun n d => n * 10 + d) m := by
    induction ds with
    | nil => exact fun m => le_rfl
    | cons d ds ih => exact fun m => le_trans (by omega) (ih (m * 10 + d))
  induction ds with
  | nil => exact fun _ => rfl
  | cons d ds ih =>
    intro m h
    rw [List.foldl_cons] at h
    rw [appendDigits, if_neg (Nat.not_le.2 ((le_foldl ds _).trans_lt h)), ih h]
    rfl

theorem appendDigits_digitList {n : Nat} (h : n < 0x10000000000000000) :
    appendDigits 0 (digitList n) = (n, (digitList n).length, 0) := by
  have value : (digitList n).foldl (fun n d => n * 10 + d) 0 = n := by
    rw [digitList, List.foldl_map]
    refine Eq.trans ?_ (Nat.ofDigitChars_ten_toDigits (n := n))
    rw [Nat.ofDigitChars]
    exact congrArg (fun f => List.foldl f 0 (Nat.toDigits 10 n)) (funext fun m => funext fun c => by
      rw [Nat.mul_comm]
      rfl)
  have appended : appendDigits 0 (digitList n) = _ := appendDigits_of_lt (by rwa [value])
  rwa [value] at appended

/-- The sign of a whole number and the digits after it. -/
theorem toList_int (z : Int) :
    (Number.text (.int z)).toList = (if z < 0 then ['-'] else []) ++ Nat.toDigits 10 z.natAbs := by
  cases z with
  | ofNat n =>
    change n.repr.toList = _
    simp [Nat.repr]
  | negSucc n =>
    change ("-" ++ (n + 1).repr).toList = _
    rw [String.toList_append]
    simp [Nat.repr]

/-- Digits are the whole of a number if nothing follows that goes on with it. -/
theorem numberParts?_int (z : Int) {rest : List Char} (h : Ends rest) :
    numberParts? ((Number.text (.int z)).toList ++ rest) =
      some (⟨decide (z < 0), digitList z.natAbs, none, none⟩, rest) := by
  have read := digits_toDigits z.natAbs h
  have proper : ¬ (digitList z.natAbs = [] ∨
      (digitList z.natAbs).head? = some 0 ∧ (digitList z.natAbs).length ≠ 1) :=
    not_or.2 (digitList_proper z.natAbs)
  have noSign (s : List Char) : Nat.toDigits 10 z.natAbs ++ rest ≠ '-' :: s := by
    obtain ⟨c, cs, heq, hc, -⟩ := exists_digits z.natAbs
    rw [heq, List.cons_append]
    rintro ⟨⟩
    exact absurd hc (by decide)
  have follow : ∀ c s, rest = c :: s → c = ',' ∨ c = ']' ∨ c = '\x7d' := by
    rintro c s rfl
    exact h.head
  rw [toList_int]
  by_cases hneg : z < 0
  · simp only [hneg, if_true, List.cons_append, List.nil_append, numberParts?, read,
      if_neg proper, decide_true]
    rcases rest with _ | ⟨c, rest⟩
    · rfl
    · rcases follow c rest rfl with rfl | rfl | rfl <;> rfl
  · simp only [hneg, if_false, List.nil_append, decide_false]
    unfold numberParts?
    split
    rename_i negative s heq
    obtain ⟨rfl, rfl⟩ : false = negative ∧ _ = s := by
      split at heq
      · rename_i s htext
        exact absurd htext (noSign s)
      · exact Prod.mk.inj heq
    simp only [read, if_neg proper]
    rcases rest with _ | ⟨c, rest⟩
    · rfl
    · rcases follow c rest rfl with rfl | rfl | rfl <;> rfl

/-- The whole numbers that fit 64 bits, with or without a sign. -/
def Fits64 (z : Int) : Prop := -0x8000000000000000 ≤ z ∧ z < 0x10000000000000000

theorem number?_int {z : Int} (hz : Fits64 z) :
    NumberParts.number? ⟨decide (z < 0), digitList z.natAbs, none, none⟩ = some (.int z) := by
  obtain ⟨hlo, hhi⟩ := hz
  have := appendDigits_digitList (n := z.natAbs) (by omega)
  simp only [NumberParts.number?, this, true_and]
  by_cases hneg : z < 0
  · rw [if_neg (by simpa using hneg), if_pos (by omega)]
    congr 2
    omega
  · rw [if_pos (by simpa using hneg)]
    congr 2
    omega

/-! ## Values -/

/-- A value whose numbers are whole and fit 64 bits, in whose objects no key stands twice, and in which at
most `depth` containers are open at once. -/
inductive Value.Kept : Nat → Value → Prop
  | null {depth} : Kept depth .null
  | bool {depth b} : Kept depth (.bool b)
  | int {depth z} : Fits64 z → Kept depth (.number (.int z))
  | string {depth s} : Kept depth (.string s)
  | array {depth items} : (∀ v ∈ items, Kept depth v) → Kept (depth + 1) (.array items)
  | object {depth members} : (members.map Prod.fst).Nodup → (∀ m ∈ members, Kept depth m.2) →
      Kept (depth + 1) (.object members)

theorem Value.kept_nat {depth n : Nat} (h : n < 0x10000000000000000) : Kept depth (.nat n) :=
  .int ⟨by omega, by omega⟩

/-- A text that starts with something else than a blank or the end of a container. -/
def Solid (s : List Char) : Prop := ∃ c cs, s = c :: cs ∧ isBlank c = false ∧ c ≠ ']' ∧ c ≠ '\x7d'

theorem Solid.append {s : List Char} (h : Solid s) (rest : List Char) : Solid (s ++ rest) := by
  obtain ⟨c, cs, rfl, hc⟩ := h
  exact ⟨c, cs ++ rest, rfl, hc⟩

theorem Solid.skipBlanks {s : List Char} (h : Solid s) : skipBlanks s = s := by
  obtain ⟨c, cs, rfl, hc, -⟩ := h
  exact List.dropWhile_cons_of_neg (by simp [hc])

theorem Solid.ne_cons {s : List Char} {c : Char} (h : Solid s) (hc : c = ']' ∨ c = '\x7d') (rest : List Char) :
    s ≠ c :: rest := by
  obtain ⟨d, cs, rfl, -, hbracket, hbrace⟩ := h
  intro heq
  obtain ⟨rfl, -⟩ := List.cons.inj heq
  rcases hc with rfl | rfl
  · exact hbracket rfl
  · exact hbrace rfl

/-- The text of a value is read as the value, whatever follows it. -/
def Value.IsRead (depth : Nat) (v : Value) : Prop :=
  ∀ fuel rest, v.text.toList.length < fuel → Ends rest →
    readValue depth fuel (v.text.toList ++ rest) = some (v, rest)

theorem solid_stringText (s : String) : Solid (stringText s).toList :=
  ⟨'"', _, toList_stringText s, by decide⟩

/-- The text of a whole number starts with a digit or a sign. -/
theorem exists_head_int (z : Int) : ∃ c cs, (Number.text (.int z)).toList = c :: cs ∧
    (c = '-' ∨ c.isDigit = true) := by
  rw [toList_int]
  split
  · exact ⟨'-', _, rfl, Or.inl rfl⟩
  · obtain ⟨c, cs, heq, hc, -⟩ := exists_digits z.natAbs
    exact ⟨c, cs, heq, Or.inr hc⟩

theorem Value.Kept.solid {depth : Nat} {v : Value} (h : v.Kept depth) : Solid v.text.toList := by
  cases h with
  | null => exact ⟨'n', _, rfl, by decide⟩
  | @bool _ b =>
    cases b
    · exact ⟨'f', _, rfl, by decide⟩
    · exact ⟨'t', _, rfl, by decide⟩
  | @int _ z _ =>
    obtain ⟨c, cs, heq, hc⟩ := exists_head_int z
    refine ⟨c, cs, heq, ?_⟩
    rcases hc with rfl | hc
    · decide
    · refine ⟨?_, ?_, ?_⟩
      · by_contra hblank
        simp only [isBlank, Bool.not_eq_false, Bool.or_eq_true, decide_eq_true_eq] at hblank
        rcases hblank with ((rfl | rfl) | rfl) | rfl <;> simp at hc
      · rintro rfl
        simp at hc
      · rintro rfl
        simp at hc
  | @string _ s => exact solid_stringText s
  | @array _ items _ =>
    refine ⟨'[', (itemsText true items).toList ++ [']'], ?_, by decide⟩
    simp [Value.text]
  | @object _ members _ _ =>
    refine ⟨'\x7b', (membersText true members).toList ++ ['\x7d'], ?_, by decide⟩
    simp [Value.text]

theorem itemsText_singleton (v : Value) : (itemsText true [v]).toList = v.text.toList := by
  simp [itemsText]

theorem itemsText_cons_cons (v w : Value) (vs : List Value) : (itemsText true (v :: w :: vs)).toList =
    v.text.toList ++ ',' :: (itemsText true (w :: vs)).toList := by
  simp [itemsText]

theorem solid_itemsText {v : Value} (h : Solid v.text.toList) (vs : List Value) :
    Solid (itemsText true (v :: vs)).toList := by
  cases vs with
  | nil => rwa [itemsText_singleton]
  | cons => rw [itemsText_cons_cons]; exact h.append _

/-- The items of an array are read up to the closing bracket. -/
theorem readItems_text {depth : Nat} {vs : List Value} : ∀ {v : Value} {fuel : Nat} {done : List Value}
    (rest : List Char), (∀ w ∈ v :: vs, w.IsRead depth ∧ Solid w.text.toList) →
      (itemsText true (v :: vs)).toList.length + 2 ≤ fuel →
        readItems depth fuel done ((itemsText true (v :: vs)).toList ++ ']' :: rest) =
          some (.array (done.reverse ++ v :: vs), rest) := by
  induction vs with
  | nil =>
    intro v fuel done rest h hfuel
    rw [itemsText_singleton] at hfuel ⊢
    obtain ⟨fuel, rfl⟩ : ∃ k, fuel = k + 1 := ⟨fuel - 1, by omega⟩
    have hread := (h v List.mem_cons_self).1 fuel (']' :: rest) (by omega) (ends_cons (by simp) rest)
    rw [readItems, hread]
    simp [skipBlanks, isBlank]
  | cons w vs ih =>
    intro v fuel done rest h hfuel
    obtain ⟨hv, hrest⟩ := List.forall_mem_cons.1 h
    rw [itemsText_cons_cons] at hfuel ⊢
    rw [List.length_append, List.length_cons] at hfuel
    obtain ⟨fuel, rfl⟩ : ∃ k, fuel = k + 1 := ⟨fuel - 1, by omega⟩
    have solid := (solid_itemsText (hrest w List.mem_cons_self).2 vs).append (']' :: rest)
    have hread := hv.1 fuel (',' :: ((itemsText true (w :: vs)).toList ++ ']' :: rest)) (by omega)
      (ends_cons (by simp) _)
    rw [List.append_assoc, List.cons_append, readItems, hread]
    have comma : skipBlanks (',' :: ((itemsText true (w :: vs)).toList ++ ']' :: rest)) =
        ',' :: ((itemsText true (w :: vs)).toList ++ ']' :: rest) := rfl
    simp only [comma, solid.skipBlanks]
    rw [ih rest hrest (by omega)]
    simp

theorem membersText_singleton (key : String) (v : Value) : (membersText true [(key, v)]).toList =
    (stringText key).toList ++ ':' :: v.text.toList := by
  simp [membersText]

theorem membersText_cons_cons (key : String) (v : Value) (m : String × Value) (ms : List (String × Value)) :
    (membersText true ((key, v) :: m :: ms)).toList =
      (stringText key).toList ++ ':' :: (v.text.toList ++ ',' :: (membersText true (m :: ms)).toList) := by
  simp [membersText]

theorem solid_membersText (m : String × Value) (ms : List (String × Value)) :
    Solid (membersText true (m :: ms)).toList := by
  obtain ⟨key, v⟩ := m
  cases ms with
  | nil => rw [membersText_singleton]; exact (solid_stringText key).append _
  | cons => rw [membersText_cons_cons]; exact (solid_stringText key).append _

theorem Value.insert_of_notMem {key : String} {v : Value} {members : List (String × Value)}
    (h : key ∉ members.map Prod.fst) : Value.insert key v members = members ++ [(key, v)] := by
  induction members with
  | nil => rfl
  | cons m ms ih =>
    simp only [List.map_cons, List.mem_cons, not_or] at h
    rw [Value.insert, if_neg (Ne.symm h.1), ih h.2, List.cons_append]

/-- A member is read from its key on: what comes after its value is read next. -/
theorem readMembers_step {depth fuel : Nat} {done : List (String × Value)} {key : String} {v : Value}
    {c : Char} {rest : List Char} (h : v.IsRead depth) (hsolid : Solid v.text.toList)
    (hfuel : v.text.toList.length < fuel) (hc : c = ',' ∨ c = '\x7d') :
    readMembers depth (fuel + 1) done
        ((stringText key).toList ++ ':' :: (v.text.toList ++ c :: rest)) =
      if c = ',' then readMembers depth fuel (Value.insert key v done) (skipBlanks rest)
      else some (.object (Value.insert key v done), rest) := by
  have hread := h fuel (c :: rest) hfuel (ends_cons (by rcases hc with rfl | rfl <;> simp) rest)
  have colon : skipBlanks (':' :: (v.text.toList ++ c :: rest)) = ':' :: (v.text.toList ++ c :: rest) := rfl
  have text : (stringText key).toList ++ ':' :: (v.text.toList ++ c :: rest) =
      '"' :: (stringChars key.toList ++ '"' :: ':' :: (v.text.toList ++ c :: rest)) := by
    rw [toList_stringText]
    simp
  rw [text, readMembers]
  simp only [readString_text, colon, (hsolid.append _).skipBlanks, hread]
  rcases hc with rfl | rfl <;> rfl

/-- The members of an object are read up to the closing bracket. -/
theorem readMembers_text {depth : Nat} {ms : List (String × Value)} : ∀ {m : String × Value} {fuel : Nat}
    {done : List (String × Value)} (rest : List Char),
      ((done ++ m :: ms).map Prod.fst).Nodup → (∀ n ∈ m :: ms, n.2.IsRead depth ∧ Solid n.2.text.toList) →
        (membersText true (m :: ms)).toList.length + 2 ≤ fuel →
          readMembers depth fuel done ((membersText true (m :: ms)).toList ++ '\x7d' :: rest) =
            some (.object (done ++ m :: ms), rest) := by
  have fresh {m : String × Value} {done ms : List (String × Value)}
      (h : ((done ++ m :: ms).map Prod.fst).Nodup) : m.1 ∉ done.map Prod.fst := by
    rw [List.map_append, List.map_cons, List.perm_middle.nodup_iff] at h
    exact fun hmem => (List.nodup_cons.1 h).1 (List.mem_append_left _ hmem)
  induction ms with
  | nil =>
    rintro ⟨key, v⟩ fuel done rest hnodup h hfuel
    obtain ⟨hread, hsolid⟩ : v.IsRead depth ∧ Solid v.text.toList := h (key, v) List.mem_cons_self
    rw [membersText_singleton] at hfuel ⊢
    simp only [List.length_append, List.length_cons] at hfuel
    obtain ⟨fuel, rfl⟩ : ∃ k, fuel = k + 1 := ⟨fuel - 1, by omega⟩
    rw [List.append_assoc, List.cons_append, readMembers_step hread hsolid (by omega) (Or.inr rfl),
      Value.insert_of_notMem (fresh hnodup)]
    rfl
  | cons n ms ih =>
    rintro ⟨key, v⟩ fuel done rest hnodup h hfuel
    obtain ⟨hm, hrest⟩ := List.forall_mem_cons.1 h
    obtain ⟨hread, hsolid⟩ : v.IsRead depth ∧ Solid v.text.toList := hm
    rw [membersText_cons_cons] at hfuel ⊢
    simp only [List.length_append, List.length_cons] at hfuel
    obtain ⟨fuel, rfl⟩ : ∃ k, fuel = k + 1 := ⟨fuel - 1, by omega⟩
    have solid := (solid_membersText n ms).append ('\x7d' :: rest)
    rw [List.append_assoc, List.cons_append, List.append_assoc, List.cons_append,
      readMembers_step hread hsolid (by omega) (Or.inl rfl), Value.insert_of_notMem (fresh hnodup),
      if_pos rfl, solid.skipBlanks, ih rest (by simpa using hnodup) hrest (by omega)]
    simp

theorem Value.isRead_int {depth : Nat} {z : Int} (hz : Fits64 z) : (Value.number (.int z)).IsRead depth := by
  intro fuel rest hfuel hends
  obtain ⟨fuel, rfl⟩ : ∃ k, fuel = k + 1 := ⟨fuel - 1, by omega⟩
  obtain ⟨c, cs, heq, hc⟩ := exists_head_int z
  have parts := numberParts?_int z hends
  rw [Value.text, readValue]
  · simp [parts, number?_int hz]
  -- the text starts with a digit or a minus sign, so it is none of the others
  all_goals
    rintro s hs
    rw [heq, List.cons_append] at hs
    obtain ⟨rfl, -⟩ := List.cons.inj hs
    simp at hc

theorem Value.isRead_string {depth : Nat} (s : String) : (Value.string s).IsRead depth := by
  intro fuel rest hfuel hends
  obtain ⟨fuel, rfl⟩ : ∃ k, fuel = k + 1 := ⟨fuel - 1, by omega⟩
  have text : (Value.string s).text.toList ++ rest = '"' :: (stringChars s.toList ++ '"' :: rest) := by
    rw [Value.text, toList_stringText]
    simp
  rw [text, readValue, readString_text]
  rfl

/-- An array is read if its items are. -/
theorem Value.isRead_array {depth : Nat} {items : List Value}
    (h : ∀ v ∈ items, v.IsRead depth ∧ Solid v.text.toList) : (Value.array items).IsRead (depth + 1) := by
  intro fuel rest hfuel hends
  have text : (Value.array items).text.toList ++ rest = '[' :: ((itemsText true items).toList ++ ']' :: rest) := by
    simp [Value.text]
  have length : (Value.array items).text.toList.length = (itemsText true items).toList.length + 2 := by
    simp [Value.text]
  obtain ⟨fuel, rfl⟩ : ∃ k, fuel = k + 1 := ⟨fuel - 1, by omega⟩
  rw [text, readValue, if_neg (Nat.succ_ne_zero depth), Nat.add_sub_cancel]
  cases items with
  | nil => rfl
  | cons v vs =>
    have solid := (solid_itemsText (h v List.mem_cons_self).2 vs).append (']' :: rest)
    rw [solid.skipBlanks]
    split
    · rename_i s heq
      exact absurd heq (solid.ne_cons (Or.inl rfl) s)
    · exact readItems_text rest h (by omega)

/-- An object is read if its members are. -/
theorem Value.isRead_object {depth : Nat} {members : List (String × Value)}
    (hnodup : (members.map Prod.fst).Nodup) (h : ∀ m ∈ members, m.2.IsRead depth ∧ Solid m.2.text.toList) :
    (Value.object members).IsRead (depth + 1) := by
  intro fuel rest hfuel hends
  have text : (Value.object members).text.toList ++ rest =
      '\x7b' :: ((membersText true members).toList ++ '\x7d' :: rest) := by
    simp [Value.text]
  have length : (Value.object members).text.toList.length = (membersText true members).toList.length + 2 := by
    simp [Value.text]
  obtain ⟨fuel, rfl⟩ : ∃ k, fuel = k + 1 := ⟨fuel - 1, by omega⟩
  rw [text, readValue, if_neg (Nat.succ_ne_zero depth), Nat.add_sub_cancel]
  cases members with
  | nil => rfl
  | cons m ms =>
    have solid := (solid_membersText m ms).append ('\x7d' :: rest)
    rw [solid.skipBlanks]
    split
    · rename_i s heq
      exact absurd heq (solid.ne_cons (Or.inr rfl) s)
    · exact readMembers_text rest (by simpa using hnodup) h (by omega)

/-- The texts of values are read back, from the inside out. -/
theorem Value.Kept.isRead {depth : Nat} {v : Value} (h : v.Kept depth) : v.IsRead depth := by
  induction h with
  | null =>
    intro fuel rest hfuel hends
    obtain ⟨fuel, rfl⟩ : ∃ k, fuel = k + 1 := ⟨fuel - 1, by omega⟩
    rfl
  | @bool _ b =>
    intro fuel rest hfuel hends
    obtain ⟨fuel, rfl⟩ : ∃ k, fuel = k + 1 := ⟨fuel - 1, by omega⟩
    cases b <;> rfl
  | int hz => exact Value.isRead_int hz
  | string => exact Value.isRead_string _
  | array hitems ih => exact Value.isRead_array fun v hv => ⟨ih v hv, (hitems v hv).solid⟩
  | object hnodup hmembers ih =>
    exact Value.isRead_object hnodup fun m hm => ⟨ih m hm, (hmembers m hm).solid⟩

/-- The text of a value is read as the value, if not too many containers are nested in it. -/
theorem parse?_text {v : Value} (h : v.Kept depthLimit) : parse? v.text = some v := by
  have read := h.isRead (v.text.toList.length + 1) [] (Nat.lt_succ_self _) ends_nil
  rw [List.append_nil] at read
  rw [parse?, h.solid.skipBlanks, read]
  rfl

end ConstrainedDecoding.Json
