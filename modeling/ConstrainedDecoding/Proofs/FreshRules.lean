import ConstrainedDecoding.Proofs.Embedding

/-!
# Rules whose bodies come later

Rules that refer to one another are added first and given their bodies afterwards. From when they
stand in the draft they are like declared ones, and once each has a body the whole only adds.
-/
namespace ConstrainedDecoding.Draft

/-- Adds rules without bodies under new names. -/
def addFreshRules (bases : List String) (d : Draft) : Draft :=
  bases.foldl (fun d base => (addFreshRule base d).2) d

variable {bases : List String} {c : Contract} {d : Draft}

@[simp] theorem addFreshRules_nil : addFreshRules [] d = d := rfl

@[simp] theorem addFreshRules_cons (base : String) :
    addFreshRules (base :: bases) d = addFreshRules bases (addFreshRule base d).2 := rfl

theorem addFreshRules_append (more : List String) :
    addFreshRules (bases ++ more) d = addFreshRules more (addFreshRules bases d) :=
  List.foldl_append

@[simp] theorem size_addFreshRule (base : String) :
    (addFreshRule base d).2.rules.size = d.rules.size + 1 := by
  simp [addFreshRule, addRule]

@[simp] theorem size_addFreshRules (bases : List String) (d : Draft) :
    (addFreshRules bases d).rules.size = d.rules.size + bases.length := by
  induction bases generalizing d with
  | nil => rfl
  | cons base bases ih =>
    rw [addFreshRules_cons, ih, size_addFreshRule, List.length_cons]
    omega

@[simp] theorem exprs_addFreshRules (bases : List String) (d : Draft) :
    (addFreshRules bases d).exprs = d.exprs := by
  induction bases generalizing d with
  | nil => rfl
  | cons base bases ih => exact ih _

theorem getElem?_addFreshRules {r : Nat} (hr : r < d.rules.size) :
    (addFreshRules bases d).rules[r]? = d.rules[r]? := by
  induction bases generalizing d with
  | nil => rfl
  | cons base bases ih =>
    rw [addFreshRules_cons, ih (by simp; omega)]
    simp [addFreshRule, addRule, Array.getElem?_push, hr.ne]

theorem Orderly.addAllFresh (h : d.Orderly c) (bases : List String) :
    (addFreshRules bases d).Orderly c := by
  induction bases generalizing d with
  | nil => exact h
  | cons base bases ih => exact ih (h.addFresh base)

/-- More rules can be taken as declared. -/
theorem Orderly.declare {n : Nat} (h : d.Orderly c) (hn : n = d.rules.size) :
    d.Orderly { c with declared := n } where
  declared_le := hn.le
  child_lt := h.child_lt
  fits := h.fits
  body_lt := h.body_lt
  lookahead_lt := h.lookahead_lt
  lists := h.lists
  nodup hnodup := by
    have length : d.ruleNames.length = n := by simp [ruleNames, hn]
    rwa [← length, List.take_length] at hnodup

/-- Names stay the first ones as a draft grows. -/
theorem Extends.take_ruleNames {T : Set Slot} {d' : Draft} (h : Extends c T d d') :
    d'.ruleNames.take d.rules.size = d.ruleNames := by
  refine List.ext_getElem? fun r => ?_
  rw [List.getElem?_take]
  split
  · rename_i hr
    simpa [ruleNames] using h.name r hr
  · rename_i hr
    simp [ruleNames, Nat.le_of_not_lt hr]

/-- Fewer rules can be taken as declared, if their names differ from what has been added since. -/
theorem Orderly.undeclare {n : Nat} {T : Set Slot} {c' : Contract} {d' : Draft}
    (h : d'.Orderly { c with declared := d.rules.size }) (hd : d.Orderly { c with declared := n })
    (hgrows : Extends c' T d d') : d'.Orderly { c with declared := n } where
  declared_le := hd.declared_le.trans hgrows.size_le
  child_lt := h.child_lt
  fits := h.fits
  body_lt := h.body_lt
  lookahead_lt := h.lookahead_lt
  lists := h.lists
  nodup hnodup := by
    refine h.nodup ?_
    change (d'.ruleNames.take d.rules.size).Nodup
    rw [hgrows.take_ruleNames]
    refine hd.nodup ?_
    have hle : n ≤ d.rules.size := hd.declared_le
    change (d.ruleNames.take n).Nodup
    rw [← hgrows.take_ruleNames, List.take_take, Nat.min_eq_left hle]
    exact hnodup

theorem rule_lt_of_mem_slotsFrom {k n : Nat} {s : Slot} (h : s ∈ slotsFrom k (List.replicate n false)) :
    ∃ r : Nat, s = .body r ∧ k ≤ r ∧ r < k + n := by
  induction n generalizing k with
  | zero => exact absurd h (Set.notMem_empty _)
  | succ n ih =>
    rw [List.replicate_succ] at h
    rcases h with h | h
    · rw [ruleSlots_false] at h
      exact ⟨k, h, le_rfl, by omega⟩
    · obtain ⟨r, rfl, hle, hlt⟩ := ih h
      exact ⟨r, rfl, by omega, by omega⟩

theorem slotsFrom_append (flags flags' : List Bool) : ∀ k : Nat,
    slotsFrom k (flags ++ flags') = slotsFrom k flags ∪ slotsFrom (k + flags.length) flags' := by
  induction flags with
  | nil => exact fun k => (Set.empty_union _).symm
  | cons followed flags ih =>
    intro k
    rw [List.cons_append, slotsFrom, ih, slotsFrom, Set.union_assoc, List.length_cons,
      Nat.add_right_comm, Nat.add_assoc k]

theorem disjoint_slotsFrom_replicate (k m n : Nat) : Disjoint (slotsFrom k (List.replicate m false))
    (slotsFrom (k + m) (List.replicate n false)) := by
  refine Set.disjoint_left.2 fun s h h' => ?_
  obtain ⟨r, rfl, -, hlt⟩ := rule_lt_of_mem_slotsFrom h
  obtain ⟨r', heq, hle, -⟩ := rule_lt_of_mem_slotsFrom h'
  cases heq
  omega

section

variable {α : Type} {n : Nat} {known : Known} {a : StateM Draft α}
  {m : Nat → StateM Draft α} {made : α → List Place} {Q : Nat → α → Grammar → Prop}

/-- Adding rules and then giving each a body only adds. -/
theorem Adds.freshRules (run : ∀ d, a d = m d.rules.size (addFreshRules bases d))
    (h : ∀ k, n ≤ k → Fills (.free (k + bases.length))
      (slotsFrom k (List.replicate bases.length false)) known (m k) made (Q k)) :
    Adds (.free n) known a made fun x g => ∃ k, n ≤ k ∧ Q k x g := by
  intro d hd hk
  have declared : n ≤ d.rules.size := hd.declared_le
  let d₁ := addFreshRules bases d
  have size : d₁.rules.size = d.rules.size + bases.length := size_addFreshRules bases d
  have older (r : Nat) (hr : r < d.rules.size) : d₁.rules[r]? = d.rules[r]? :=
    getElem?_addFreshRules hr
  have orderly : d₁.Orderly (.free n) := hd.addAllFresh bases
  have places : ∀ p ∈ known, p.In d₁ := fun p hp => by
    have := hk p hp
    cases p with
    | node e => simpa [d₁] using this
    | leaf l => simpa [d₁] using this
    | rule r => exact Nat.lt_of_lt_of_le this (by omega)
  have out := h d.rules.size declared d₁ (orderly.declare size.symm) places
  rw [run d]
  generalize m d.rules.size d₁ = answer at out
  obtain ⟨x, d₂⟩ := answer
  dsimp only at out ⊢
  have grows := out.grows
  have size_le := grows.size_le
  refine ⟨⟨by simpa [d₁] using grows.exprs, by omega, fun r hr => ?_, by simp, ?_, ?_⟩, ?_, out.made,
    fun g _ _ _ => Contract.free_holds n g _ _, fun g hg hbecomes hfact =>
      ⟨d.rules.size, declared, out.spec g hg ⟨hbecomes.exprs, ?_, ?_⟩ hfact⟩⟩
  · rw [grows.name r (by omega), older r hr]
  · intro s _ hs
    have lt : s.rule < d₁.rules.size := Nat.lt_of_lt_of_le hs (by omega)
    refine Slot.Same.trans ?_ (grows.kept s (fun hmem => ?_) lt)
    · cases s with
      | body r => exact congrArg _ (older r hs).symm
      | lookahead r => exact congrArg _ (older r hs).symm
    · obtain ⟨r, rfl, hle, -⟩ := rule_lt_of_mem_slotsFrom hmem
      exact Nat.not_lt.2 hle hs
  · rintro r (hr | ⟨hle, hlt⟩)
    · exact absurd hr (Set.notMem_empty _)
    · rcases Nat.lt_or_ge r d₁.rules.size with hr | hr
      · exact grows.filled r (Or.inl (body_mem_slotsFrom hle (by simpa [size] using hr)))
      · exact grows.filled r (Or.inr ⟨hr, hlt⟩)
  · exact Orderly.undeclare (c := .free n) (size ▸ out.orderly) orderly grows
  · exact fun r hle hlt => hbecomes.rules r (by omega) hlt
  · intro s hs
    obtain ⟨r, rfl, hle, hlt⟩ := rule_lt_of_mem_slotsFrom hs
    have lt : r < d₂.rules.size := by omega
    simp only [Slot.Same, hbecomes.rules r hle lt, Array.getElem?_map]

end

section

variable {ι : Type} {f : ι × RuleId → StateM Draft Unit} {P : ι → RuleId → Grammar → Prop}

/-- A loop that gives a body to each of several rules in a row. -/
theorem Fills.eachRule (xs : List ι) : ∀ {k : Nat} {known : Known},
    (∀ x ∈ xs, ∀ (r : Nat) (known' : Known), k ≤ r → r < k + xs.length →
      (∀ p ∈ known, p ∈ known') → (∀ g, known'.fact g → known.fact g) →
      Fills c {.body r} known' (f (x, r)) (fun _ => []) fun _ g => P x r g) →
    Fills c (slotsFrom k (List.replicate xs.length false)) known
      (forIn (xs.zipIdx k) PUnit.unit fun x _ => f x >>= fun _ => pure (ForInStep.yield PUnit.unit))
      (fun _ => []) fun _ g => ∀ x ∈ xs.zipIdx k, P x.1 x.2 g := by
  induction xs with
  | nil =>
    intro k known _
    exact Adds.pure (by simp) fun g _ _ => by simp
  | cons x xs ih =>
    intro k known h
    have run : (forIn ((x :: xs).zipIdx k) PUnit.unit
        fun x _ => f x >>= fun _ => pure (ForInStep.yield PUnit.unit)) = f (x, k) >>= fun _ =>
          forIn (xs.zipIdx (k + 1)) PUnit.unit
            fun x _ => f x >>= fun _ => pure (ForInStep.yield PUnit.unit) := by
      rw [List.zipIdx_cons, List.forIn_cons]
      rfl
    rw [run]
    refine Fills.bind (h x (by simp) k known le_rfl (by simp) (fun _ => id) fun _ => id) (fun _ =>
      (ih fun y hy r known' hle hlt hk hfact => ?_).imp fun _ g _ hrest hfirst => ?_)
      (by rw [List.length_cons, List.replicate_succ, slotsFrom, ruleSlots_false])
      (by rw [← ruleSlots_false]; exact disjoint_slotsFrom k _ _)
    · refine h y (by simp [hy]) r known' (by omega) (by simp only [List.length_cons]; omega)
        (fun p hp => hk p (by simp [hp])) fun g hg => (hfact g hg).1
    · rw [List.zipIdx_cons]
      exact List.forall_mem_cons.2 ⟨hfirst, hrest⟩

end

end ConstrainedDecoding.Draft
