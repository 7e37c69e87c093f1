import ConstrainedDecoding.Marks
import Mathlib.Data.List.Forall2

/-!
# Folds and traversals

What a run of fallible steps says about each of its steps once it has come to an end, which places
of an array a run of marks has marked, what text a run of appends has put together, and what number
a run over digits comes to.
-/
namespace ConstrainedDecoding

/-! ## Texts -/

theorem toList_foldl_append {α : Type} (f : α → String) (xs : List α) : ∀ out : String,
    (xs.foldl (fun out x => out ++ f x) out).toList = out.toList ++ xs.flatMap fun x => (f x).toList := by
  induction xs with
  | nil => simp
  | cons x xs ih => simp [ih]

/-! ## Digits -/

/-- A digit in front goes into the number that the digits after it continue. -/
theorem ofDigitChars_cons_place (c : Char) (ds : List Char) (n : Nat) :
    Nat.ofDigitChars 10 (c :: ds) n = Nat.ofDigitChars 10 ds (n * 10 + (c.toNat - 48)) := by
  rw [Nat.ofDigitChars_cons, Nat.mul_comm]
  rfl

/-- More digits never make a number smaller. -/
theorem le_ofDigitChars (ds : List Char) (n : Nat) : n ≤ Nat.ofDigitChars 10 ds n := by
  rw [Nat.ofDigitChars_eq_ofDigitChars_zero]
  exact Nat.le_trans (Nat.le_mul_of_pos_left n (Nat.pow_pos (Nat.succ_pos 9))) (Nat.le_add_right _ _)

/-- A number is written as a digit and more digits, which continue it to the number. -/
theorem exists_digits (n : Nat) : ∃ d ds, Nat.toDigits 10 n = d :: ds ∧ d.isDigit = true ∧
    (∀ c ∈ ds, c.isDigit = true) ∧ Nat.ofDigitChars 10 ds (d.toNat - 48) = n := by
  obtain ⟨d, ds, hds⟩ := List.exists_cons_of_ne_nil (Nat.toDigits_ne_nil (n := n) (b := 10))
  have digit : ∀ c ∈ d :: ds, c.isDigit = true :=
    fun c hc => Nat.isDigit_of_mem_toDigits (by decide) (by decide) (hds ▸ hc)
  obtain ⟨hd, hdigits⟩ := List.forall_mem_cons.1 digit
  have value : Nat.ofDigitChars 10 (d :: ds) 0 = n := hds ▸ Nat.ofDigitChars_ten_toDigits
  rw [ofDigitChars_cons_place, Nat.zero_mul, Nat.zero_add] at value
  exact ⟨d, ds, hds, hd, hdigits, value⟩

/-! ## Traversals -/

theorem exists_of_forall₂ {α β : Type} {P : α → β → Prop} {as : List α} {bs : List β}
    (h : List.Forall₂ P as bs) :
    (∀ a ∈ as, ∃ b ∈ bs, P a b) ∧ ∀ b ∈ bs, ∃ a ∈ as, P a b := by
  induction h with
  | nil => simp
  | cons hab _ ih =>
    exact ⟨List.forall_mem_cons.2 ⟨⟨_, by simp, hab⟩, fun a ha =>
        (ih.1 a ha).imp fun b h => ⟨List.mem_cons_of_mem _ h.1, h.2⟩⟩,
      List.forall_mem_cons.2 ⟨⟨_, by simp, hab⟩, fun b hb =>
        (ih.2 b hb).imp fun a h => ⟨List.mem_cons_of_mem _ h.1, h.2⟩⟩⟩

theorem getElem?_of_forall₂ {α β : Type} {P : α → β → Prop} {as : List α} {bs : List β}
    (h : List.Forall₂ P as bs) {i : Nat} {a : α} (ha : as[i]? = some a) :
    ∃ b, bs[i]? = some b ∧ P a b := by
  obtain ⟨hi, rfl⟩ := List.getElem?_eq_some_iff.1 ha
  have hi' : i < bs.length := h.length_eq ▸ hi
  exact ⟨bs[i], by simp [hi'], (List.forall₂_iff_get.1 h).2 i hi hi'⟩

theorem map_eq_of_forall₂ {α β γ : Type} {f : α → γ} {g : β → γ} {as : List α} {bs : List β}
    (h : List.Forall₂ (fun a b => g b = f a) as bs) : bs.map g = as.map f := by
  induction h with
  | nil => rfl
  | cons hab _ ih => rw [List.map_cons, List.map_cons, hab, ih]

/-! ## Outcomes -/

theorem Except.bind_eq_ok {ε α β : Type} {x : Except ε α} {f : α → Except ε β} {b : β} :
    x >>= f = .ok b ↔ ∃ a, x = .ok a ∧ f a = .ok b := by
  cases x with
  | error err => simp [bind, Except.bind]
  | ok a => simp [bind, Except.bind]

theorem Except.map_eq_ok {ε α β : Type} {x : Except ε α} {f : α → β} {b : β} :
    x.map f = .ok b ↔ ∃ a, x = .ok a ∧ f a = b := by
  cases x with
  | error err => simp [Except.map]
  | ok a => simp [Except.map]

theorem Except.mapError_eq_ok {ε ε' α : Type} {x : Except ε α} {f : ε → ε'} {a : α} :
    x.mapError f = .ok a ↔ x = .ok a := by
  cases x with
  | error err => simp [Except.mapError]
  | ok a => simp [Except.mapError]

theorem Except.toOption_eq_some {ε α : Type} {x : Except ε α} {a : α} :
    x.toOption = some a ↔ x = .ok a := by
  cases x with
  | error err => simp [Except.toOption]
  | ok a => simp [Except.toOption]

/-- Each answer of a traversal is the answer at its item. -/
theorem Except.forall₂_of_mapM {ε α β : Type} {f : α → Except ε β} {as : List α} :
    ∀ {bs : List β}, as.mapM f = .ok bs → List.Forall₂ (fun a b => f a = .ok b) as bs := by
  induction as with
  | nil =>
    rintro bs ⟨⟩
    exact .nil
  | cons a as ih =>
    intro bs h
    rw [List.mapM_cons, Except.bind_eq_ok] at h
    obtain ⟨b, hb, h⟩ := h
    rw [Except.bind_eq_ok] at h
    obtain ⟨bs', hbs, ⟨⟩⟩ := h
    exact .cons hb (ih hbs)

/-- A traversal answers if it does at each item. -/
theorem Except.exists_mapM_eq_ok {ε α β : Type} {f : α → Except ε β} {as : List α}
    (h : ∀ a ∈ as, ∃ b, f a = .ok b) : ∃ bs, as.mapM f = .ok bs := by
  induction as with
  | nil => exact ⟨[], rfl⟩
  | cons a as ih =>
    obtain ⟨⟨b, hb⟩, hrest⟩ := List.forall_mem_cons.1 h
    obtain ⟨bs, hbs⟩ := ih hrest
    exact ⟨b :: bs, by rw [List.mapM_cons, hb, hbs]; rfl⟩

theorem Except.getElem?_of_mapM {ε α β : Type} {f : α → Except ε β} {as : List α} {bs : List β}
    (h : as.mapM f = .ok bs) (i : Nat) {a : α} (ha : as[i]? = some a) :
    ∃ b, bs[i]? = some b ∧ f a = .ok b :=
  getElem?_of_forall₂ (Except.forall₂_of_mapM h) ha

theorem Except.length_of_mapM {ε α β : Type} {f : α → Except ε β} {as : List α} {bs : List β}
    (h : as.mapM f = .ok bs) : bs.length = as.length :=
  (Except.forall₂_of_mapM h).length_eq.symm

/-! ## Actions that may fail -/

theorem StateT.bind_eq_some {σ α β : Type} {x : StateT σ Option α} {f : α → StateT σ Option β}
    {s : σ} {r : β × σ} :
    (x >>= f) s = some r ↔ ∃ a s', x s = some (a, s') ∧ f a s' = some r := by
  change (x s).bind (fun p => f p.1 p.2) = some r ↔ _
  simp [Option.bind_eq_some_iff]

theorem StateT.pure_eq_some {σ α : Type} {a : α} {s : σ} {r : α × σ} :
    (pure a : StateT σ Option α) s = some r ↔ (a, s) = r := by
  change some (a, s) = some r ↔ _
  simp

/-- A run over a list runs on its first member and then on the others. -/
theorem StateM.mapM_cons {σ α β : Type} (f : α → StateM σ β) (a : α) (as : List α) (s : σ) :
    (a :: as).mapM f s = ((f a s).1 :: (as.mapM f (f a s).2).1, (as.mapM f (f a s).2).2) := by
  rw [List.mapM_cons]
  rfl

/-- If each step of a traversal keeps an invariant, extends the state and answers what it should,
and what was answered stays right when the state is extended, then all answers are right. -/
theorem StateT.forall₂_of_mapM {σ α β : Type} {f : α → StateT σ Option β} {I : σ → Prop}
    {R : σ → σ → Prop} {Q : α → β → σ → Prop} (refl : ∀ s, R s s)
    (trans : ∀ s s' s'', R s s' → R s' s'' → R s s'')
    (mono : ∀ a b s s', Q a b s → R s s' → Q a b s')
    (step : ∀ a s b s', I s → f a s = some (b, s') → I s' ∧ R s s' ∧ Q a b s') (as : List α) :
    ∀ (s : σ) (bs : List β) (s' : σ), I s → as.mapM f s = some (bs, s') →
      I s' ∧ R s s' ∧ List.Forall₂ (fun a b => Q a b s') as bs := by
  induction as with
  | nil =>
    intro s bs s' hI h
    rw [List.mapM_nil, StateT.pure_eq_some] at h
    obtain ⟨rfl, rfl⟩ := Prod.mk.inj h
    exact ⟨hI, refl s, .nil⟩
  | cons a as ih =>
    intro s bs s' hI h
    rw [List.mapM_cons, StateT.bind_eq_some] at h
    obtain ⟨b, s₁, hb, h⟩ := h
    rw [StateT.bind_eq_some] at h
    obtain ⟨bs', s₂, hbs, h⟩ := h
    rw [StateT.pure_eq_some] at h
    obtain ⟨rfl, rfl⟩ := Prod.mk.inj h
    obtain ⟨hI₁, hR₁, hQ⟩ := step a s b s₁ hI hb
    obtain ⟨hI₂, hR₂, hQs⟩ := ih s₁ bs' s₂ hI₁ hbs
    exact ⟨hI₂, trans _ _ _ hR₁ hR₂, .cons (mono _ _ _ _ hQ hR₂) hQs⟩

/-- The same for steps that cannot fail. -/
theorem StateM.forall₂_of_mapM {σ α β : Type} {f : α → StateM σ β} {I : σ → Prop}
    {R : σ → σ → Prop} {Q : α → β → σ → Prop} (refl : ∀ s, R s s)
    (trans : ∀ s s' s'', R s s' → R s' s'' → R s s'')
    (mono : ∀ a b s s', Q a b s → R s s' → Q a b s')
    (step : ∀ a s, I s → I (f a s).2 ∧ R s (f a s).2 ∧ Q a (f a s).1 (f a s).2) (as : List α) :
    ∀ s : σ, I s → I (as.mapM f s).2 ∧ R s (as.mapM f s).2 ∧
      List.Forall₂ (fun a b => Q a b (as.mapM f s).2) as (as.mapM f s).1 := by
  induction as with
  | nil => exact fun s hI => ⟨hI, refl s, .nil⟩
  | cons a as ih =>
    intro s hI
    obtain ⟨hI₁, hR₁, hQ⟩ := step a s hI
    obtain ⟨hI₂, hR₂, hQs⟩ := ih _ hI₁
    rw [StateM.mapM_cons]
    exact ⟨hI₂, trans _ _ _ hR₁ hR₂, .cons (mono _ _ _ _ hQ hR₂) hQs⟩

/-- If what each step of a traversal adds to the state can be told from its answer, all that the
traversal adds can be told from one of its answers. -/
theorem StateT.exists_of_mapM {σ α β : Type} {f : α → StateT σ Option β} {I : Nat → σ → Prop}
    {Q : β → Nat → Prop} (step : ∀ a s b s', f a s = some (b, s') → ∀ j, I j s' → I j s ∨ Q b j)
    (as : List α) : ∀ (s : σ) (bs : List β) (s' : σ), as.mapM f s = some (bs, s') →
      ∀ j, I j s' → I j s ∨ ∃ b ∈ bs, Q b j := by
  induction as with
  | nil =>
    intro s bs s' h j hj
    rw [List.mapM_nil, StateT.pure_eq_some] at h
    obtain ⟨-, rfl⟩ := Prod.mk.inj h
    exact Or.inl hj
  | cons a as ih =>
    intro s bs s' h j hj
    rw [List.mapM_cons, StateT.bind_eq_some] at h
    obtain ⟨b, s₁, hb, h⟩ := h
    rw [StateT.bind_eq_some] at h
    obtain ⟨bs', s₂, hbs, h⟩ := h
    rw [StateT.pure_eq_some] at h
    obtain ⟨rfl, rfl⟩ := Prod.mk.inj h
    rcases ih s₁ bs' s₂ hbs j hj with hj | ⟨b', hb', hQ⟩
    · exact (step a s b s₁ hb j hj).imp_right fun hQ => ⟨b, List.mem_cons_self, hQ⟩
    · exact Or.inr ⟨b', List.mem_cons_of_mem _ hb', hQ⟩

/-! ## Marks -/

theorem size_markAll (marks : Array Bool) (places : List Nat) :
    (markAll marks places).size = marks.size := by
  induction places generalizing marks with
  | nil => rfl
  | cons i places ih => exact (ih _).trans (by simp)

theorem getD_markAll (marks : Array Bool) (places : List Nat) (i : Nat) :
    (markAll marks places).getD i false = true ↔
      marks.getD i false = true ∨ i ∈ places ∧ i < marks.size := by
  induction places generalizing marks with
  | nil => simp [markAll]
  | cons j places ih =>
    change (markAll (marks.setIfInBounds j true) places).getD i false = true ↔ _
    rw [ih]
    by_cases hi : i < marks.size
    · by_cases hj : j = i <;> simp [hi, hj, Array.getD_eq_getD_getElem?, Ne.symm]
    · simp [hi]

theorem getD_marksOf (size : Nat) (places : List Nat) (i : Nat) :
    (marksOf size places).getD i false = true ↔ i ∈ places ∧ i < size := by
  rw [marksOf, getD_markAll]
  by_cases hi : i < size <;> simp [Array.getD_eq_getD_getElem?, hi]

end ConstrainedDecoding
