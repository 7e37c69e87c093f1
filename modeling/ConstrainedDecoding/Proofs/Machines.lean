import ConstrainedDecoding.Proofs.FreshRules
import ConstrainedDecoding.Proofs.TriggerLinks
import ConstrainedDecoding.Tag.Grammar

/-!
# Drawing from machines

Free text is drawn alike from machines that do the same under other names. So what is drawn from the
watcher, whose states are numbers, can be read off the beginnings of triggers that they stand for.
-/
namespace ConstrainedDecoding.Tag

namespace Machine

section

variable {σ : Type}

/-! ## States with rules -/

/-- The states, the first one in front. -/
def states (m : Machine σ) : List σ := m.start :: m.others

/-- The states that have rules of free text. -/
def ruled (m : Machine σ) : List σ := m.start :: m.others.filter fun s => (m.completed? s).isNone

theorem mem_states_of_ruled {m : Machine σ} {s : σ} (h : s ∈ m.ruled) : s ∈ m.states :=
  (List.mem_cons.1 h).elim (fun heq => heq ▸ List.mem_cons_self)
    fun hmem => List.mem_cons_of_mem _ (List.mem_of_mem_filter hmem)

/-- Adds the rule of a state, if it has one. -/
private def addRuleFor (m : Machine σ) (name : String) (s : σ) : StateM Draft (Option (σ × RuleId)) := do
  if (m.completed? s).isSome then return none
  else return some (s, ← Draft.addFreshRule name)

private theorem addRuleFor_run (m : Machine σ) (name : String) (ss : List σ) : ∀ d : Draft,
    ss.filterMapM (addRuleFor m name) d =
      ((ss.filter fun s => (m.completed? s).isNone).zipIdx d.rules.size,
        d.addFreshRules (List.replicate (ss.filter fun s => (m.completed? s).isNone).length name)) := by
  induction ss with
  | nil => exact fun d => rfl
  | cons s ss ih =>
    intro d
    rw [List.filterMapM_cons]
    cases hs : m.completed? s with
    | some k =>
      have skip : addRuleFor m name s = pure none := by simp [addRuleFor, hs]
      simp only [skip, pure_bind, List.filter_cons, hs, Option.isNone_some, Bool.false_eq_true,
        if_false]
      exact ih d
    | none =>
      have rule : addRuleFor m name s = Draft.addFreshRule name >>= fun r => pure (some (s, r)) := by
        simp [addRuleFor, hs]
      have rest := ih (Draft.addFreshRule name d).2
      rw [Draft.size_addFreshRule] at rest
      simp only [List.filter_cons, hs, Option.isNone_none, if_true, List.zipIdx_cons,
        List.length_cons, List.replicate_succ, Draft.addFreshRules_cons]
      rw [rule]
      change ((s, d.rules.size) :: (ss.filterMapM (addRuleFor m name) (Draft.addFreshRule name d).2).1,
        (ss.filterMapM (addRuleFor m name) (Draft.addFreshRule name d).2).2) = _
      rw [rest]

/-- The rules of free text are added in a row. -/
theorem drawRules_run (m : Machine σ) (name : String) (d : Draft) : m.drawRules name d =
    (m.ruled.zipIdx d.rules.size, d.addFreshRules (List.replicate m.ruled.length name)) := by
  have rest := addRuleFor_run m name m.others (Draft.addFreshRule name d).2
  rw [Draft.size_addFreshRule] at rest
  rw [ruled, List.zipIdx_cons, List.length_cons, List.replicate_succ, Draft.addFreshRules_cons]
  change ((m.start, d.rules.size) ::
      (m.others.filterMapM (addRuleFor m name) (Draft.addFreshRule name d).2).1,
    (m.others.filterMapM (addRuleFor m name) (Draft.addFreshRule name d).2).2) = _
  rw [rest]

theorem lookup_ruled [BEq σ] [LawfulBEq σ] (m : Machine σ) (n : Nat) :
    ((m.ruled.zipIdx n).lookup m.start).getD 0 = n := by
  simp [ruled]

/-! ## Bodies of states -/

variable [BEq σ]

/-- The body of a state. -/
def drawBody (m : Machine σ) (rules : List (σ × RuleId)) (mayEnd : Bool) (afterTag : Option RuleId)
    (dispatch : List (Option RuleId)) (state : σ) : StateM Draft ExprId := do
  let ending ← if mayEnd then do
      let e ← Draft.addLeaf .empty
      pure [← Draft.add (.sequence [e])]
    else pure []
  let chars := m.continuations state
  let codes := chars.map fun c => (UInt32.ofNat c.toNat, UInt32.ofNat c.toNat)
  let other ← Draft.addLeaf (.charClass ⟨true, codes⟩)
  let restart ← Draft.addLeaf (.reference ((rules.lookup m.start).getD 0))
  let back ← Draft.add (.sequence [other, restart])
  let steps ← chars.filterMapM (m.drawStep rules dispatch afterTag state)
  Draft.add (.choice (ending ++ [back] ++ steps))

/-- Gives the rule of a state its body. -/
def giveState (m : Machine σ) (rules : List (σ × RuleId)) (mayEnd : Bool) (afterTag : Option RuleId)
    (dispatch : List (Option RuleId)) (x : σ × RuleId) : StateM Draft Unit := do
  if (m.completed? x.1).isNone then
    Draft.giveBody x.2 (← m.drawBody rules mayEnd afterTag dispatch x.1)

theorem drawBodies_eq (m : Machine σ) (rules : List (σ × RuleId)) (mayEnd : Bool)
    (afterTag : Option RuleId) (dispatch : List (Option RuleId)) :
    m.drawBodies rules mayEnd afterTag dispatch = forIn rules PUnit.unit fun x _ =>
      m.giveState rules mayEnd afterTag dispatch x >>= fun _ => pure (ForInStep.yield PUnit.unit) := by
  unfold drawBodies
  refine bind_pure_unit.trans (congrArg (forIn rules PUnit.unit) (funext fun x => funext fun _ => ?_))
  obtain ⟨state, rule⟩ := x
  by_cases h : (m.completed? state).isNone
  · cases mayEnd <;> simp only [giveState, drawBody, h, if_true] <;> rfl
  · simp [giveState, h]

end

/-! ## Other names -/

variable {σ τ : Type}

/-- A machine does the same as another one whose states have other names. -/
structure Renames (m : Machine σ) (m' : Machine τ) (f : σ → τ) : Prop where
  start : m'.start = f m.start
  others : m'.others = m.others.map f
  inj : ∀ s ∈ m.states, ∀ r ∈ m.states, f s = f r → s = r
  mem : ∀ s ∈ m.states, ∀ c, m.step s c ∈ m.states
  step : ∀ s ∈ m.states, ∀ c, m'.step (f s) c = f (m.step s c)
  completed : ∀ s ∈ m.states, m'.completed? (f s) = m.completed? s
  continuations : ∀ s ∈ m.states, m'.continuations (f s) = m.continuations s

section

variable {m : Machine σ} {m' : Machine τ} {f : σ → τ} {rules : List (σ × RuleId)} {mayEnd : Bool}
  {afterTag : Option RuleId} {dispatch : List (Option RuleId)} {s : σ}

theorem Renames.start_mem (_ : Renames m m' f) : m.start ∈ m.states := List.mem_cons_self

theorem Renames.ruled (h : Renames m m' f) : m'.ruled = m.ruled.map f := by
  rw [Machine.ruled, Machine.ruled, h.start, h.others, List.filter_map, List.map_cons]
  refine congrArg _ (congrArg _ (List.filter_congr fun s hs => ?_))
  rw [Function.comp_apply, h.completed s (List.mem_cons_of_mem _ hs)]

private theorem forIn_congr_of_mem {α : Type} {xs : List α}
    {f g : α → PUnit → StateM Draft (ForInStep PUnit)} :
    (∀ x ∈ xs, f x = g x) → forIn xs PUnit.unit f = forIn xs PUnit.unit g := by
  induction xs with
  | nil => exact fun _ => rfl
  | cons x xs ih =>
    intro h
    obtain ⟨hx, hxs⟩ := List.forall_mem_cons.1 h
    rw [List.forIn_cons, List.forIn_cons, hx]
    refine bind_congr fun next => ?_
    cases next with
    | done _ => rfl
    | yield _ => exact ih hxs

/-- Rules of states under their other names. -/
abbrev rename (f : σ → τ) (rules : List (σ × RuleId)) : List (τ × RuleId) := rules.map (Prod.map f id)

variable [BEq σ] [LawfulBEq σ] [BEq τ] [LawfulBEq τ]

theorem Renames.lookup (h : Renames m m' f) (hrules : ∀ x ∈ rules, x.1 ∈ m.states) (hs : s ∈ m.states) :
    (rename f rules).lookup (f s) = rules.lookup s := by
  induction rules with
  | nil => rfl
  | cons x rules ih =>
    obtain ⟨r, n⟩ := x
    obtain ⟨hr, hrules⟩ := List.forall_mem_cons.1 hrules
    rw [rename, List.map_cons, Prod.map_apply, List.lookup_cons, List.lookup_cons]
    have same : (f s == f r) = (s == r) := by
      rw [Bool.eq_iff_iff, beq_iff_eq, beq_iff_eq]
      exact ⟨h.inj s hs r hr, congrArg f⟩
    rw [same, ← ih hrules]
    rfl

theorem Renames.drawStep (h : Renames m m' f) (hrules : ∀ x ∈ rules, x.1 ∈ m.states)
    (hs : s ∈ m.states) : m'.drawStep (rename f rules) dispatch afterTag (f s) =
      m.drawStep rules dispatch afterTag s := by
  funext c
  have hnext := h.mem s hs c
  simp only [Machine.drawStep, h.step s hs, h.completed _ hnext, h.lookup hrules hnext]

theorem Renames.drawBody (h : Renames m m' f) (hrules : ∀ x ∈ rules, x.1 ∈ m.states)
    (hs : s ∈ m.states) : m'.drawBody (rename f rules) mayEnd afterTag dispatch (f s) =
      m.drawBody rules mayEnd afterTag dispatch s := by
  simp only [Machine.drawBody, h.drawStep hrules hs, h.continuations s hs, h.start,
    h.lookup hrules h.start_mem]

/-- The bodies of free text are drawn alike. -/
theorem Renames.drawBodies (h : Renames m m' f) (hrules : ∀ x ∈ rules, x.1 ∈ m.states) :
    m'.drawBodies (rename f rules) mayEnd afterTag dispatch =
      m.drawBodies rules mayEnd afterTag dispatch := by
  have give (x : σ × RuleId) (hx : x.1 ∈ m.states) :
      m'.giveState (rename f rules) mayEnd afterTag dispatch (Prod.map f id x) =
        m.giveState rules mayEnd afterTag dispatch x := by
    unfold giveState
    rw [Prod.map_fst, Prod.map_snd, h.completed _ hx, h.drawBody hrules hx]
    rfl
  rw [drawBodies_eq, drawBodies_eq, List.forIn_map]
  refine forIn_congr_of_mem fun x hx => ?_
  rw [give x (hrules x hx)]

theorem Renames.drawBodies_ruled (h : Renames m m' f) (k : Nat) :
    m.drawBodies (m.ruled.zipIdx k) mayEnd afterTag dispatch =
      m'.drawBodies (m'.ruled.zipIdx k) mayEnd afterTag dispatch := by
  rw [h.ruled, List.zipIdx_map]
  exact (h.drawBodies fun x hx => mem_states_of_ruled (List.fst_mem_of_mem_zipIdx hx)).symm

end

end Machine

/-! ## The watcher -/

/-- Characters in ascending order. -/
abbrev ascending (cs : List Char) : List Char := cs.eraseDups.mergeSort fun a b => a ≤ b

theorem ascending_congr {xs ys : List Char} (h : ∀ c, c ∈ ascending xs ↔ c ∈ ascending ys) :
    ascending xs = ascending ys := by
  have sorted (zs : List Char) : (zs.mergeSort fun a b => a ≤ b).Pairwise (· ≤ ·) :=
    (List.pairwise_mergeSort (fun a b c hab hbc => by
      simp only [decide_eq_true_eq] at *
      exact Std.le_trans hab hbc) (fun a b => by simpa using Std.le_total) zs).imp of_decide_eq_true
  have perm (zs : List Char) : (ascending zs).Perm zs.eraseDups := List.mergeSort_perm _ _
  have nodup (zs : List Char) : (ascending zs).Nodup := (perm zs).nodup_iff.2 (nodup_eraseDups zs)
  exact List.Perm.eq_of_pairwise (fun a b _ _ => Std.le_antisymm) (sorted _) (sorted _)
    ((List.perm_ext_iff_of_nodup (nodup xs) (nodup ys)).2 h)

theorem Watcher.continuations_at {t : Triggers} (hempty : [] ∉ t.words) {s : Nat} {u : List Char}
    (hs : t.At s u) : (ofTriggers t.words).continuations s = t.continuations u :=
  ascending_congr fun _ => mem_continuations_at hempty hs

/-- The watcher's states are numbers of the beginnings of triggers. -/
theorem Watcher.renames (t : Triggers) (hempty : [] ∉ t.words) :
    (ofTriggers t.words).machine.Renames t.machine fun s => t.states.getD s [] := by
  have size : (ofTriggers t.words).size = t.states.length := (isTree_ofTriggers hempty).size
  have positive : 0 < t.states.length := (at_zero.2 rfl : t.At 0 []).length_lt
  have text {s : Nat} {u : List Char} (hs : t.At s u) : t.states.getD s [] = u := by
    simp [List.getD_eq_getElem?_getD, hs]
  have mem_states {s : Nat} : s ∈ (ofTriggers t.words).machine.states ↔ s < t.states.length := by
    simp only [Machine.states, Watcher.machine, List.mem_cons, List.mem_range'_1, size]
    omega
  have at_text {s : Nat} (hs : s ∈ (ofTriggers t.words).machine.states) :
      t.At s (t.states.getD s []) := by
    have hlt := mem_states.1 hs
    simp [List.getD_eq_getElem?_getD, hlt]
  refine ⟨(text (at_zero.2 rfl)).symm, ?_, fun s hs r hr heq => ?_, fun s hs c => ?_, fun s hs c => ?_,
    fun s hs => ?_, fun s hs => ?_⟩
  · refine List.ext_getElem (by simp [Triggers.machine, Watcher.machine, size]) fun i hi _ => ?_
    have hlt : 1 + i < t.states.length := by simpa [Triggers.machine, Nat.lt_sub_iff_add_lt'] using hi
    simp [Triggers.machine, Watcher.machine, List.getD_eq_getElem?_getD, hlt, Nat.add_comm i 1]
  · exact (at_text hs).inj (heq ▸ at_text hr)
  · exact mem_states.2 (List.getElem?_eq_some_iff.1 (at_step hempty (at_text hs) c)).1
  · exact (text (at_step hempty (at_text hs) c)).symm
  · exact (completed?_at hempty (at_text hs)).symm
  · exact (continuations_at hempty (at_text hs)).symm

end ConstrainedDecoding.Tag
