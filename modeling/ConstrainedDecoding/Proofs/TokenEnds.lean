import ConstrainedDecoding.Proofs.Lexing

/-!
# Where tokens end

A token is a beginning of the text that is left, and it ends as many bytes further right on its line
as its characters have. Inside escapes, names and numbers all characters have one byte, so it makes
no difference that these are counted as characters there.
-/
namespace ConstrainedDecoding

/-! ## Sizes -/

namespace Utf8

@[simp] theorem size_nil : size [] = 0 := rfl

theorem size_eq_sum (cs : List Char) : size cs = (cs.map Char.utf8Size).sum :=
  List.sum_eq_foldl.symm

@[simp] theorem size_cons (c : Char) (cs : List Char) : size (c :: cs) = c.utf8Size + size cs := by
  simp [size_eq_sum]

@[simp] theorem size_append (cs ds : List Char) : size (cs ++ ds) = size cs + size ds := by
  simp [size_eq_sum]

theorem size_eq_length {cs : List Char} (h : ∀ c ∈ cs, c.utf8Size = 1) : size cs = cs.length := by
  induction cs with
  | nil => rfl
  | cons c cs ih =>
    obtain ⟨hc, hcs⟩ := List.forall_mem_cons.1 h
    rw [size_cons, hc, ih hcs, List.length_cons, Nat.add_comm]

end Utf8

namespace Ebnf

@[simp] theorem Position.right_right (p : Position) (m n : Nat) :
    (p.right m).right n = p.right (m + n) := by
  simp [right, Nat.add_assoc]

section

variable {c : Char}

theorem utf8Size_of_val_le {n : UInt32} (h : c.val ≤ n) (hn : n ≤ 127) : c.utf8Size = 1 :=
  Char.utf8Size_eq_one_iff.2 (UInt32.le_trans h hn)

theorem utf8Size_of_mem {cs : List Char} (hcs : cs.all (·.utf8Size = 1) = true) (h : c ∈ cs) :
    c.utf8Size = 1 := by
  simpa using List.all_eq_true.1 hcs c h

theorem utf8Size_of_isHex (h : Text.isHex c = true) : c.utf8Size = 1 := by
  unfold Text.isHex Text.hexValue? at h
  split_ifs at h with hdigit hlower hupper
  · exact utf8Size_of_val_le hdigit.2 (by decide)
  · exact utf8Size_of_val_le hlower.2 (by decide)
  · exact utf8Size_of_val_le hupper.2 (by decide)
  · cases h

theorem utf8Size_of_continuesName (h : continuesName c = true) : c.utf8Size = 1 := by
  simp only [continuesName, startsName, Char.isAlpha, Char.isUpper, Char.isLower, Char.isDigit,
    Bool.or_eq_true, Bool.and_eq_true, decide_eq_true_eq] at h
  rcases h with (((rfl | rfl) | rfl) | hupper | hlower) | hdigit
  · rfl
  · rfl
  · rfl
  · exact utf8Size_of_val_le hupper.2 (by decide)
  · exact utf8Size_of_val_le hlower.2 (by decide)
  · exact utf8Size_of_val_le hdigit.2 (by decide)

theorem utf8Size_of_simpleEscape? {n : Nat} (h : simpleEscape? c = some n) : c.utf8Size = 1 := by
  have : c ∈ ['\x27', '"', '?', '\\', '/', 'a', 'b', 'f', 'n', 'r', 't', 'v', '0', 'e'] := by
    simp only [simpleEscape?, List.mem_cons, List.not_mem_nil, or_false] at h ⊢
    grind
  exact utf8Size_of_mem (by decide) this

theorem utf8Size_of_punctuation? {t : Token} (h : punctuation? c = some t) : c.utf8Size = 1 := by
  have : c ∈ ['(', ')', '\x7b', '\x7d', '|', ',', '*', '+', '?'] := by
    simp only [punctuation?, List.mem_cons, List.not_mem_nil, or_false] at h ⊢
    grind
  exact utf8Size_of_mem (by decide) this

end

/-! ## Escapes -/

theorem size_take_of_hexDigits {kind : EscapeKind} {digits n : Nat} {cs : List Char}
    (h : hexDigits kind digits cs = .ok n) : Utf8.size (cs.take digits) = digits := by
  simp only [hexDigits] at h
  split at h
  · rename_i hds
    rw [Utf8.size_eq_length fun c hc => utf8Size_of_isHex (List.all_eq_true.1 hds.2 c hc), hds.1]
  · split at h <;> cases h

section

variable {own : List Char}

theorem size_take_of_readEscape (hown : ∀ c ∈ own, c.utf8Size = 1) {cs : List Char} {n taken : Nat}
    (h : readEscape own cs = .ok (n, taken)) : Utf8.size (cs.take taken) = taken := by
  cases cs with
  | nil => cases h
  | cons c cs =>
    have fixed {kind : EscapeKind} {digits : Nat} (hc : c.utf8Size = 1)
        (h : ((hexDigits kind digits cs).map fun n => (n, digits + 1)) = .ok (n, taken)) :
        Utf8.size ((c :: cs).take taken) = taken := by
      obtain ⟨m, hm, heq⟩ := Except.map_eq_ok.1 h
      obtain ⟨-, rfl⟩ := Prod.mk.inj heq
      rw [List.take_succ_cons, Utf8.size_cons, size_take_of_hexDigits hm, hc, Nat.add_comm]
    simp only [readEscape] at h
    split at h
    · rename_i hc
      obtain ⟨-, rfl⟩ := Prod.mk.inj (Except.ok.inj h)
      simp [hown c hc]
    split at h
    · rename_i hc
      obtain ⟨-, rfl⟩ := Prod.mk.inj (Except.ok.inj h)
      simp [utf8Size_of_simpleEscape? hc]
    split at h
    · rename_i hc
      split at h
      · cases h
      · obtain ⟨-, rfl⟩ := Prod.mk.inj (Except.ok.inj h)
        have digits : (cs.take 8).takeWhile Text.isHex <+: cs :=
          (List.takeWhile_prefix _).trans (List.take_prefix _ _)
        have one : c.utf8Size = 1 := hc ▸ rfl
        rw [Nat.add_comm, List.take_succ_cons, ← List.prefix_iff_eq_take.1 digits, Utf8.size_cons, one,
          Utf8.size_eq_length fun d hd => utf8Size_of_isHex (List.mem_takeWhile_imp hd), Nat.add_comm]
    split at h
    · rename_i hc
      exact fixed (hc ▸ rfl) h
    split at h
    · rename_i hc
      exact fixed (hc ▸ rfl) h
    · cases h

theorem size_of_readUnit (hown : ∀ c ∈ own, c.utf8Size = 1) {c : Char} {cs : List Char} {n taken : Nat}
    (h : readUnit own c cs = .ok (n, taken)) :
    Utf8.size (c :: cs.take taken) = c.utf8Size + taken := by
  unfold readUnit at h
  rw [Utf8.size_cons]
  split at h
  · rw [size_take_of_readEscape hown h]
  · obtain ⟨-, rfl⟩ := Prod.mk.inj (Except.ok.inj h)
    rfl

theorem utf8Size_of_mem_classEscapes {c : Char} (h : c ∈ classEscapes) : c.utf8Size = 1 :=
  utf8Size_of_mem (by decide) h

end

/-! ## Tokens -/

/-- What has been read of a text that starts at `p` is a beginning of it, and the place after it is as
many bytes further right. -/
def Cut.Leaves {n : Nat} {α : Type} (cut : Cut n α) (p : Position) (cs : List Char) : Prop :=
  ∃ used, cs = used ++ cut.rest ∧ cut.position = p.right (Utf8.size used)

section

variable {m n : Nat} {α β : Type} {cut : Cut m α} {cut' : Cut n β} {p : Position} {c : Char}
  {cs ds : List Char}

/-- The same ending, seen from before some more of the text. -/
theorem Cut.Leaves.before (us : List Char) {bytes : Nat} (h : cut.Leaves (p.right bytes) ds)
    (hbytes : Utf8.size us = bytes) (hcs : cs = us ++ ds) (hposition : cut'.position = cut.position)
    (hrest : cut'.rest = cut.rest) : cut'.Leaves p cs := by
  subst hbytes
  obtain ⟨used, rfl, hused⟩ := h
  refine ⟨us ++ used, ?_, ?_⟩
  · rw [hcs, hrest, List.append_assoc]
  · rw [hposition, hused, Position.right_right, Utf8.size_append]

/-- The same ending, seen from before a character or escape. -/
theorem Cut.Leaves.beforeUnit {own : List Char} {code taken : Nat} (hown : ∀ d ∈ own, d.utf8Size = 1)
    (hunit : readUnit own c cs = .ok (code, taken))
    (h : cut.Leaves (p.right (c.utf8Size + taken)) (cs.drop taken))
    (hposition : cut'.position = cut.position) (hrest : cut'.rest = cut.rest) :
    cut'.Leaves p (c :: cs) :=
  h.before (c :: cs.take taken) (size_of_readUnit hown hunit)
    (by rw [List.cons_append, List.take_append_drop]) hposition hrest

theorem leaves_readLiteral (p : Position) (done cs : List Char) :
    ∀ cut, readLiteral p done cs = .ok cut → cut.Leaves p cs := by
  fun_induction readLiteral p done cs with
  | case1 | case2 | case4 | case6 => nofun
  | case3 =>
    rintro _ ⟨⟩
    exact ⟨['"'], rfl, rfl⟩
  | case5 p done c cs _ _ n taken hunit _ ih =>
    intro cut h
    obtain ⟨cut, hcut, rfl⟩ := Except.map_eq_ok.1 h
    exact (ih cut hcut).beforeUnit (List.forall_mem_nil _) hunit rfl rfl

theorem leaves_readMembers (p : Position) (done : List (Located ClassMember)) (cs : List Char) :
    ∀ cut, readMembers p done cs = .ok cut → cut.Leaves p cs := by
  fun_induction readMembers p done cs with
  | case1 | case3 | case5 => nofun
  | case2 =>
    rintro _ ⟨⟩
    exact ⟨[']'], rfl, rfl⟩
  | case4 p done cs _ _ ih =>
    intro cut h
    obtain ⟨cut, hcut, rfl⟩ := Except.map_eq_ok.1 h
    exact (ih cut hcut).before ['-'] rfl rfl rfl rfl
  | case6 p done c cs _ _ _ n taken hunit ih =>
    intro cut h
    obtain ⟨cut, hcut, rfl⟩ := Except.map_eq_ok.1 h
    exact (ih cut hcut).beforeUnit (fun _ => utf8Size_of_mem_classEscapes) hunit rfl rfl

theorem size_digit (hc : c.isDigit = true) : Utf8.size [c] = 1 :=
  Utf8.size_eq_length (by simpa using utf8Size_of_continuesName (continuesName_of_isDigit hc))

theorem leaves_readInteger (p : Position) (n : Nat) (cs : List Char) :
    ∀ cut, readInteger p n cs = .ok cut → cut.Leaves p cs := by
  fun_induction readInteger p n cs with
  | case2 => nofun
  | case1 | case4 =>
    rintro _ ⟨⟩
    exact ⟨[], rfl, rfl⟩
  | case3 p n c cs hc _ _ ih =>
    intro cut h
    obtain ⟨cut, hcut, rfl⟩ := Except.map_eq_ok.1 h
    exact (ih cut hcut).before [c] (size_digit hc) rfl rfl rfl

/-- A token is a beginning of the text, and ends as many bytes further right. -/
theorem leaves_readToken {cut : Cut cs.length Token} (h : readToken p c cs = .ok cut) :
    cut.Leaves p (c :: cs) := by
  unfold readToken at h
  split at h
  · rename_i hparen
    obtain ⟨rfl, hhead⟩ := hparen
    obtain ⟨ds, rfl⟩ := List.head?_eq_some_iff.1 hhead
    obtain rfl := Except.ok.inj h
    exact ⟨['(', '='], rfl, rfl⟩
  split at h
  · rename_i ht
    obtain rfl := Except.ok.inj h
    exact ⟨[c], rfl, by simp [utf8Size_of_punctuation? ht]⟩
  split at h
  · rename_i hc
    subst hc
    split at h
    · rename_i htake
      obtain rfl := Except.ok.inj h
      refine ⟨':' :: cs.take 2, ?_, by rw [htake]; rfl⟩
      rw [List.cons_append, List.take_append_drop]
    · cases h
  split at h
  · rename_i hc
    subst hc
    obtain ⟨cut, hcut, rfl⟩ := Except.map_eq_ok.1 h
    exact (leaves_readLiteral _ _ _ _ hcut).before ['"'] rfl rfl rfl rfl
  split at h
  · rename_i hc
    subst hc
    obtain ⟨cut, hcut, rfl⟩ := Except.map_eq_ok.1 h
    -- a caret that negates the class is taken before its members are read
    by_cases hcaret : cs.head? = some '^'
    · obtain ⟨ds, rfl⟩ := List.head?_eq_some_iff.1 hcaret
      exact (leaves_readMembers _ _ _ _ hcut).before ['[', '^'] rfl rfl rfl rfl
    · refine (leaves_readMembers _ _ _ _ hcut).before ['['] ?_ ?_ rfl rfl
      · simp [hcaret]
        rfl
      · simp [hcaret]
  split at h
  · rename_i hc
    obtain rfl := Except.ok.inj h
    have one : c.utf8Size = 1 := utf8Size_of_continuesName (continuesName_of_startsName hc)
    refine ⟨c :: cs.takeWhile continuesName, by simp, ?_⟩
    rw [Utf8.size_cons, one, Utf8.size_eq_length fun d hd => utf8Size_of_continuesName (List.mem_takeWhile_imp hd)]
  split at h
  · rename_i hc
    obtain ⟨cut, hcut, rfl⟩ := Except.map_eq_ok.1 h
    exact (leaves_readInteger _ _ _ _ hcut).before [c] (size_digit hc) rfl rfl rfl
  · cases h

end

end Ebnf

end ConstrainedDecoding
