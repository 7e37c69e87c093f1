import ConstrainedDecoding.Proofs.Machines

/-!
# Free text

The rules of free text describe what the watcher lets pass: characters that complete no trigger, up
to the end of the text or to the first trigger that is completed, after which the text has to go on
as the rule for that trigger says.
-/
namespace ConstrainedDecoding

namespace Tag.Triggers

variable {t : Triggers} {mayEnd : Bool} {K : Nat → Language UInt8} {x y : List Char} {c : Char}
  {k : Nat} {w : Bytes}

/-! ## Quiet texts -/

/-- No trigger is completed within a text. -/
def Quiet (t : Triggers) (x : List Char) : Prop := ∀ y, y <+: x → t.completed? y = none

/-- The first trigger that is completed within a text is completed by its last character. -/
structure Enters (t : Triggers) (x : List Char) (k : Nat) : Prop where
  completed : t.completed? x = some k
  before : ∀ y, y <+: x → y ≠ x → t.completed? y = none

theorem quiet_iff : t.Quiet x ↔ ∀ w ∈ t.words, ¬ w <:+: x := by
  simp only [Quiet, completed?_eq_none, List.infix_iff_suffix_prefix, not_exists, not_and]
  exact ⟨fun h w hw y hwy hy => h y hy w hw hwy, fun h y hy w hw hwy => h w hw y hwy hy⟩

theorem Quiet.of_append (h : t.Quiet (x ++ y)) : t.Quiet x :=
  fun z hz => h z (hz.trans (List.prefix_append x y))

theorem Quiet.completed (h : t.Quiet x) : t.completed? x = none := h x List.prefix_rfl

theorem quiet_concat : t.Quiet (x ++ [c]) ↔ t.Quiet x ∧ t.completed? (x ++ [c]) = none := by
  constructor
  · exact fun h => ⟨h.of_append, h.completed⟩
  · rintro ⟨h, hc⟩ y hy
    rcases List.prefix_concat_iff.1 hy with rfl | hy
    · exact hc
    · exact h y hy

theorem enters_concat : t.Enters (x ++ [c]) k ↔ t.Quiet x ∧ t.completed? (x ++ [c]) = some k := by
  constructor
  · refine fun h => ⟨fun y hy => h.before y (hy.trans (List.prefix_append x [c])) ?_, h.completed⟩
    rintro rfl
    have := hy.length_le
    simp at this
  · rintro ⟨h, hc⟩
    refine ⟨hc, fun y hy hne => ?_⟩
    exact h y ((List.prefix_concat_iff.1 hy).resolve_left hne)

theorem Enters.ne_nil (hnil : t.completed? [] = none) (h : t.Enters x k) : x ≠ [] := by
  rintro rfl
  have := h.completed
  simp [hnil] at this

/-! ## What text goes on with -/

/-- How a text can go on, if `K` says what follows a completed trigger. -/
inductive GoesOn (t : Triggers) (mayEnd : Bool) (K : Nat → Language UInt8) : List Char → Bytes → Prop
  | stop {x : List Char} : mayEnd = true → GoesOn t mayEnd K x []
  | char {x : List Char} {c : Char} {w : Bytes} : t.completed? (x ++ [c]) = none →
      GoesOn t mayEnd K (x ++ [c]) w → GoesOn t mayEnd K x (String.utf8EncodeChar c ++ w)
  | enter {x : List Char} {c : Char} {k : Nat} {w : Bytes} : t.completed? (x ++ [c]) = some k →
      w ∈ K k → GoesOn t mayEnd K x (String.utf8EncodeChar c ++ w)

theorem GoesOn.append (h : t.GoesOn mayEnd K (x ++ y) w) : t.Quiet (x ++ y) →
    t.GoesOn mayEnd K x (Utf8.encode y ++ w) := by
  induction y using List.reverseRecOn generalizing w with
  | nil => exact fun _ => by simpa using h
  | append_singleton y c ih =>
    intro hquiet
    rw [← List.append_assoc, quiet_concat] at hquiet
    rw [← List.append_assoc] at h
    have := ih (.char hquiet.2 h) hquiet.1
    simpa using this

/-- A text goes on with free text up to its end, or up to the completion of a trigger. -/
theorem goesOn_iff (hnil : t.completed? [] = none) : t.GoesOn mayEnd K [] w ↔
    (mayEnd = true ∧ ∃ y, t.Quiet y ∧ w = Utf8.encode y) ∨
      ∃ y k v, t.Enters y k ∧ v ∈ K k ∧ w = Utf8.encode y ++ v := by
  have forward {x : List Char} {w : Bytes} (h : t.GoesOn mayEnd K x w) : t.Quiet x →
      (mayEnd = true ∧ ∃ y, t.Quiet (x ++ y) ∧ w = Utf8.encode y) ∨
        ∃ y k v, t.Enters (x ++ y) k ∧ v ∈ K k ∧ w = Utf8.encode y ++ v := by
    induction h with
    | stop hend => exact fun hx => Or.inl ⟨hend, [], by simpa using hx, rfl⟩
    | @char x c w hc _ ih =>
      intro hx
      rcases ih (quiet_concat.2 ⟨hx, hc⟩) with ⟨hend, y, hy, rfl⟩ | ⟨y, k, v, hy, hv, rfl⟩
      · exact Or.inl ⟨hend, c :: y, by simpa using hy, rfl⟩
      · exact Or.inr ⟨c :: y, k, v, by simpa using hy, hv, by simp⟩
    | @enter x c k w hc hw =>
      exact fun hx => Or.inr ⟨[c], k, w, enters_concat.2 ⟨hx, hc⟩, hw, by simp⟩
  constructor
  · intro h
    have quiet : t.Quiet [] := fun y hy => by rw [List.prefix_nil.1 hy, hnil]
    simpa using forward h quiet
  · rintro (⟨hend, y, hy, rfl⟩ | ⟨y, k, v, hy, hv, rfl⟩)
    · have : t.GoesOn mayEnd K ([] ++ y) [] := .stop hend
      simpa using this.append (by simpa using hy)
    · rcases List.eq_nil_or_concat y with rfl | ⟨y, c, rfl⟩
      · exact absurd rfl (hy.ne_nil hnil)
      · rw [List.concat_eq_append] at hy ⊢
        obtain ⟨hquiet, hc⟩ := enters_concat.1 hy
        have : t.GoesOn mayEnd K ([] ++ y) (String.utf8EncodeChar c ++ v) := .enter (by simpa using hc) hv
        simpa using this.append (by simpa using hquiet)

/-- Languages of the states that describe a character and what follows it describe how texts go on. -/
theorem mem_iff_goesOn {F : List Char → Language UInt8}
    (h : ∀ x, t.completed? x = none → ∀ w, w ∈ F (t.settle x) ↔ mayEnd = true ∧ w = [] ∨
      ∃ c v, w = String.utf8EncodeChar c ++ v ∧
        v ∈ match t.completed? (t.settle (x ++ [c])) with
          | some k => K k
          | none => F (t.settle (x ++ [c]))) :
    ∀ {x : List Char} {w : Bytes}, t.completed? x = none →
      (w ∈ F (t.settle x) ↔ t.GoesOn mayEnd K x w) := by
  have backward {x : List Char} {w : Bytes} (hgoes : t.GoesOn mayEnd K x w) :
      t.completed? x = none → w ∈ F (t.settle x) := by
    induction hgoes with
    | stop hend => exact fun hx => (h _ hx _).2 (Or.inl ⟨hend, rfl⟩)
    | char hc _ ih =>
      refine fun hx => (h _ hx _).2 (Or.inr ⟨_, _, rfl, ?_⟩)
      rw [completed?_settle, hc]
      exact ih hc
    | enter hc hw =>
      refine fun hx => (h _ hx _).2 (Or.inr ⟨_, _, rfl, ?_⟩)
      rw [completed?_settle, hc]
      exact hw
  -- each character takes a byte, so the induction is on the number of bytes
  have forward (n : Nat) : ∀ (x : List Char) (w : Bytes), w.length < n → t.completed? x = none →
      w ∈ F (t.settle x) → t.GoesOn mayEnd K x w := by
    induction n with
    | zero => exact fun x w hlen => absurd hlen (Nat.not_lt_zero _)
    | succ n ih =>
      intro x w hlen hx hw
      rcases (h x hx w).1 hw with ⟨hend, rfl⟩ | ⟨c, v, rfl, hv⟩
      · exact .stop hend
      · rw [completed?_settle] at hv
        have : 0 < (String.utf8EncodeChar c).length := by simp [String.length_utf8EncodeChar, Char.utf8Size_pos]
        rw [List.length_append] at hlen
        cases hc : t.completed? (x ++ [c]) with
        | none =>
          rw [hc] at hv
          exact .char hc (ih _ v (by omega) hc hv)
        | some k =>
          rw [hc] at hv
          exact .enter hc hv
  exact fun {x w} hx => ⟨forward (w.length + 1) x w (Nat.lt_succ_self _) hx, fun hgoes => backward hgoes hx⟩

/-! ## States with rules -/

/-- The states that have rules of free text. -/
def ruled (t : Triggers) : List (List Char) :=
  [] :: (t.states.drop 1).filter fun u => (t.completed? u).isNone

theorem ruled_machine (t : Triggers) : t.machine.ruled = t.ruled := rfl

theorem length_ruled_pos (t : Triggers) : 0 < t.ruled.length := by simp [ruled]

theorem settle_mem_ruled (h : t.completed? x = none) : t.settle x ∈ t.ruled := by
  have hstate : t.settle x ∈ t.states := mem_states.2 (isState_settle x)
  have hnone : (t.completed? (t.settle x)).isNone := by simp [completed?_settle, h]
  rw [states, List.eraseDups_cons, List.mem_cons] at hstate
  rw [ruled, states, List.eraseDups_cons, List.mem_cons]
  exact hstate.imp_right fun hmem => List.mem_filter.2 ⟨hmem, hnone⟩

/-- The rule of a state is found under it. -/
theorem exists_lookup {us : List (List Char)} {u : List Char} (h : u ∈ us) : ∀ n : Nat,
    ∃ r, (us.zipIdx n).lookup u = some r ∧ (u, r) ∈ us.zipIdx n := by
  induction us with
  | nil => cases h
  | cons v us ih =>
    intro n
    rw [List.zipIdx_cons, List.lookup_cons]
    by_cases huv : u = v
    · subst huv
      exact ⟨n, by simp, by simp⟩
    · obtain ⟨r, hr, hmem⟩ := ih ((List.mem_cons.1 h).resolve_left huv) (n + 1)
      have : (u == v) = false := by simpa using huv
      exact ⟨r, by simpa [this] using hr, List.mem_cons_of_mem _ hmem⟩

theorem lookup_lt (t : Triggers) (n : Nat) (u : List Char) :
    ((t.ruled.zipIdx n).lookup u).getD 0 < n + t.ruled.length := by
  by_cases hu : u ∈ t.ruled
  · obtain ⟨r, hr, hmem⟩ := exists_lookup hu n
    simpa [hr] using (List.mem_zipIdx hmem).2.1
  · have : (t.ruled.zipIdx n).lookup u = none := by
      rw [List.lookup_eq_none_iff]
      rintro ⟨v, r⟩ hmem
      have hv : v ∈ t.ruled := List.fst_mem_of_mem_zipIdx hmem
      simpa using fun h : u = v => hu (h ▸ hv)
    rw [this]
    exact Nat.add_pos_right n (length_ruled_pos t)

/-! ## Bodies of states -/

section

open Draft (Known Adds Fills Contract)

variable {n : Nat} {known : Known} {rules : List (List Char × RuleId)}
  {dispatch : List (Option RuleId)} {afterTag : Option RuleId} {state : List Char}

/-- What follows when the watcher gets to a state. -/
def onward (t : Triggers) (rules : List (List Char × RuleId)) (dispatch : List (Option RuleId))
    (afterTag : Option RuleId) (L : Reading) (u : List Char) : Language UInt8 :=
  match t.completed? u with
  | some k => (dispatch[k]?.join).elim 0 L * afterTag.elim 1 L
  | none => L ((rules.lookup u).getD 0)

theorem onward_of_some {u : List Char} (h : t.completed? u = some k) (L : Reading) :
    t.onward rules dispatch afterTag L u = (dispatch[k]?.join).elim 0 L * afterTag.elim 1 L := by
  simp [onward, h]

theorem onward_of_none {u : List Char} (h : t.completed? u = none) (L : Reading) :
    t.onward rules dispatch afterTag L u = L ((rules.lookup u).getD 0) := by
  simp [onward, h]

/-- The rules that bodies of states lead to are declared or known. -/
structure Targets (n : Nat) (known : Known) (rules : List (List Char × RuleId))
    (dispatch : List (Option RuleId)) (afterTag : Option RuleId) : Prop where
  ruled : ∀ u, (rules.lookup u).getD 0 < n
  dispatched : ∀ (k : Nat) (r : RuleId), dispatch[k]?.join = some r → .rule r ∈ known
  after : ∀ r ∈ afterTag, r < n

theorem Targets.mono {known' : Known} (h : Targets n known rules dispatch afterTag)
    (hk : ∀ p ∈ known, p ∈ known') : Targets n known' rules dispatch afterTag :=
  ⟨h.ruled, fun k r hr => hk _ (h.dispatched k r hr), h.after⟩

/-- An alternative describes the character and what follows. -/
theorem adds_drawStep (targets : Targets n known rules dispatch afterTag) :
    Adds (.free n) known (t.machine.drawStep rules dispatch afterTag state c)
    (fun o => o.toList.map .node) fun o g => o.elim 0 (fun e => (g.tree e).language g.reading) =
      {String.utf8EncodeChar c} * t.onward rules dispatch afterTag g.reading (t.step state c) := by
  unfold Machine.drawStep machine
  dsimp only
  cases hc : t.completed? (t.step state c) with
  | none =>
    simp only [onward_of_none hc]
    refine (Adds.plainLeaf rfl).bind fun char => (Adds.reference (Or.inl (targets.ruled _))).bind
      fun on => (Adds.sequence (by simp)).bind fun s => Adds.pure (by simp) fun g _ _ hs hon hchar => ?_
    simp [hs, hon, hchar, Leaf.language, Utf8.encode]
  | some k =>
    simp only [onward_of_some hc]
    cases htags : dispatch[k]?.join with
    | none => exact Adds.pure (by simp) fun g _ _ => by simp
    | some tags =>
      refine (Adds.plainLeaf rfl).bind fun char =>
        (Adds.reference (Or.inr (by simp [targets.dispatched k tags htags]))).bind fun tag => ?_
      cases afterTag with
      | none =>
        simp only [pure_bind]
        refine (Adds.sequence (by simp)).bind fun s => Adds.pure (by simp) fun g _ _ hs htag hchar => ?_
        simp [hs, htag, hchar, Leaf.language, Utf8.encode]
      | some r =>
        simp only [pure_bind]
        refine (Adds.reference (Or.inl (targets.after r rfl))).bind fun after =>
          (Adds.sequence (by simp)).bind fun s => Adds.pure (by simp) fun g _ _ hs hafter htag hchar => ?_
        simp [hs, hafter, htag, hchar, Leaf.language, Utf8.encode]

/-- Alternatives, some of which are left out. -/
private theorem adds_filterMapM {ι : Type} {f : ι → StateM Draft (Option ExprId)}
    {K : ι → Grammar → Language UInt8} (xs : List ι) : ∀ known : Known,
    (∀ x ∈ xs, ∀ known' : Known, (∀ p ∈ known, p ∈ known') →
      Adds (.free n) known' (f x) (fun o => o.toList.map .node) fun o g =>
        o.elim 0 (fun e => (g.tree e).language g.reading) = K x g) →
    Adds (.free n) known (xs.filterMapM f) (fun es => es.map .node) fun es g =>
      ∀ w, w ∈ Tree.choiceLanguage g.reading (es.map g.tree) ↔ ∃ x ∈ xs, w ∈ K x g := by
  induction xs with
  | nil => exact fun known _ => Adds.pure (by simp) fun g _ _ w => by simp [Language.notMem_zero]
  | cons x xs ih =>
    intro known h
    obtain ⟨hx, hxs⟩ := List.forall_mem_cons.1 h
    rw [List.filterMapM_cons]
    refine (hx known fun _ => id).bind fun o => ?_
    have rest := ih (known.and (o.toList.map .node)
      fun g => o.elim 0 (fun e => (g.tree e).language g.reading) = K x g)
      fun y hy known' hk => hxs y hy known' fun p hp => hk p (by simp [hp])
    cases o with
    | none =>
      refine rest.imp fun es g _ hes hx w => ?_
      simp only [hes, List.mem_cons, exists_eq_or_imp, ← hx]
      exact (or_iff_right (Language.notMem_zero w)).symm
    | some e =>
      refine rest.bind fun es => Adds.pure (by simp +contextual) fun g _ _ hes hx w => ?_
      simp only [List.map_cons, Tree.choiceLanguage_cons, Language.mem_add, hes, List.mem_cons,
        exists_eq_or_imp, ← hx]
      rfl

/-- The class that leaves out characters has the others. -/
theorem has_others {chars : List Char} {c : Char} : CharClass.Has
    ⟨true, chars.map fun c => (UInt32.ofNat c.toNat, UInt32.ofNat c.toNat)⟩ c ↔ c ∉ chars := by
  have covers : CharClass.Covers
      ⟨true, chars.map fun c => (UInt32.ofNat c.toNat, UInt32.ofNat c.toNat)⟩ c.toNat ↔ c ∈ chars := by
    simp only [CharClass.Covers, List.mem_map]
    constructor
    · rintro ⟨_, ⟨d, hd, rfl⟩, hle, hge⟩
      have : d = c := Char.toNat_inj.1 (Nat.le_antisymm (by simpa using hle) (by simpa using hge))
      exact this ▸ hd
    · exact fun h => ⟨_, ⟨c, h, rfl⟩, by simp, by simp⟩
  rw [CharClass.Has, covers]
  simp

/-- What is read from a state: nothing, or a character and what follows it. -/
def Reads (t : Triggers) (rules : List (List Char × RuleId)) (mayEnd : Bool)
    (afterTag : Option RuleId) (dispatch : List (Option RuleId)) (L : Reading) (state : List Char)
    (w : Bytes) : Prop :=
  mayEnd = true ∧ w = [] ∨ ∃ c v, w = String.utf8EncodeChar c ++ v ∧
    v ∈ t.onward rules dispatch afterTag L (t.step state c)

private theorem adds_drawBody (hnil : t.completed? [] = none) (known : Known)
    (targets : Targets n known rules dispatch afterTag) :
    Adds (.free n) known (t.machine.drawBody rules mayEnd afterTag dispatch state) (fun e => [.node e])
      fun e g => ∀ w, w ∈ (g.tree e).language g.reading ↔
        t.Reads rules mayEnd afterTag dispatch g.reading state w := by
  have rest (ending : List ExprId) (known : Known) (hending : ∀ e ∈ ending, .node e ∈ known)
      (targets : Targets n known rules dispatch afterTag) : Adds (.free n) known (do
        let other ← Draft.addLeaf (.charClass ⟨true, (t.continuations state).map fun c =>
          (UInt32.ofNat c.toNat, UInt32.ofNat c.toNat)⟩)
        let restart ← Draft.addLeaf (.reference ((rules.lookup []).getD 0))
        let back ← Draft.add (.sequence [other, restart])
        let steps ← (t.continuations state).filterMapM (t.machine.drawStep rules dispatch afterTag state)
        Draft.add (.choice (ending ++ [back] ++ steps))) (fun e => [.node e]) fun e g =>
          ∀ w, w ∈ (g.tree e).language g.reading ↔
            w ∈ Tree.choiceLanguage g.reading (ending.map g.tree) ∨ ∃ c v,
              w = String.utf8EncodeChar c ++ v ∧
              v ∈ t.onward rules dispatch afterTag g.reading (t.step state c) := by
    refine (Adds.plainLeaf rfl).bind fun other => (Adds.reference (Or.inl (targets.ruled _))).bind
      fun restart => (Adds.sequence (by simp)).bind fun back => (adds_filterMapM _ _ fun c _ known hk =>
        adds_drawStep (targets.mono fun p hp => hk p (by simp [hp]))).bind fun steps =>
          (Adds.choice ?_).imp ?_
    · simp only [List.mem_append, List.mem_singleton, Draft.Known.mem_and, List.mem_map]
      rintro e ((he | rfl) | he)
      · simp [hending e he]
      · simp
      · simp [he]
    · intro e g _ he hsteps hback hrestart hother w
      have others : w ∈ (g.tree back).language g.reading ↔ ∃ c v, c ∉ t.continuations state ∧
          v ∈ t.onward rules dispatch afterTag g.reading (t.step state c) ∧
          w = String.utf8EncodeChar c ++ v := by
        simp only [hback, List.map_cons, List.map_nil, hother, hrestart, Tree.language_sequence,
          Tree.sequenceLanguage_cons, Tree.sequenceLanguage_nil, mul_one, Tree.language_leaf,
          Leaf.language, Language.mem_mul, CharClass.mem_language, has_others]
        constructor
        · rintro ⟨_, ⟨c, hc, rfl⟩, v, hv, rfl⟩
          refine ⟨c, v, hc, ?_, rfl⟩
          rwa [step_of_notMem hc, onward_of_none hnil]
        · rintro ⟨c, v, hc, hv, rfl⟩
          rw [step_of_notMem hc, onward_of_none hnil] at hv
          exact ⟨_, ⟨c, hc, rfl⟩, v, hv, rfl⟩
      simp only [he, Tree.language_choice, List.map_append, Tree.choiceLanguage_append,
        Language.mem_add, List.map_cons, List.map_nil, Tree.choiceLanguage_cons,
        Tree.choiceLanguage_nil, add_zero, hsteps, others, Language.mem_singleton_mul, or_assoc]
      refine or_congr_right ⟨?_, ?_⟩
      · rintro (⟨c, v, -, hv, rfl⟩ | ⟨c, -, v, hv, rfl⟩)
        · exact ⟨c, v, rfl, hv⟩
        · exact ⟨c, v, rfl, hv⟩
      · rintro ⟨c, v, rfl, hv⟩
        by_cases hc : c ∈ t.continuations state
        · exact Or.inr ⟨c, hc, v, hv, rfl⟩
        · exact Or.inl ⟨c, v, hc, hv, rfl⟩
  unfold Machine.drawBody Reads
  cases mayEnd with
  | false =>
    simp only [Bool.false_eq_true, if_false, pure_bind, false_and, false_or]
    refine (rest [] known (by simp) targets).imp fun e g _ he w => ?_
    rw [he, List.map_nil, Tree.choiceLanguage_nil, or_iff_right (Language.notMem_zero w)]
  | true =>
    simp only [if_true, pure_bind, true_and]
    refine (Adds.plainLeaf rfl).bind fun e => (Adds.sequence (by simp)).bind fun ending =>
      (rest [ending] _ (by simp) (targets.mono fun p hp => by simp [hp])).imp fun b g _ hb hending he w => ?_
    simp [hb, hending, he, Leaf.language]

/-- Every state that has a rule gets its body. -/
theorem fills_drawBodies (hnil : t.completed? [] = none) {k : Nat} (hk : k + t.ruled.length ≤ n)
    (hdispatch : ∀ (i : Nat) (r : RuleId), dispatch[i]?.join = some r → .rule r ∈ known) (hafter : ∀ r ∈ afterTag, r < n) :
    Fills (.free n) (Draft.slotsFrom k (List.replicate t.ruled.length false)) known
      (t.machine.drawBodies (t.ruled.zipIdx k) mayEnd afterTag dispatch) (fun _ => []) fun _ g =>
        ∀ x ∈ t.ruled.zipIdx k, ∀ w, w ∈ g.reading x.2 ↔
          t.Reads (t.ruled.zipIdx k) mayEnd afterTag dispatch g.reading x.1 w := by
  have quiet : ∀ u ∈ t.ruled, t.completed? u = none := by
    intro u hu
    rcases List.mem_cons.1 hu with rfl | hu
    · exact hnil
    · simpa using (List.mem_filter.1 hu).2
  rw [Machine.drawBodies_eq]
  refine Fills.eachRule (P := fun u r g => ∀ w, w ∈ g.reading r ↔
    t.Reads (t.ruled.zipIdx k) mayEnd afterTag dispatch g.reading u w) t.ruled
    fun u hu r known' hle hlt hk' _ => ?_
  have body : t.machine.giveState (t.ruled.zipIdx k) mayEnd afterTag dispatch (u, r) =
      t.machine.drawBody (t.ruled.zipIdx k) mayEnd afterTag dispatch u >>= Draft.giveBody r := by
    simp [Machine.giveState, machine, quiet u hu]
  rw [body]
  have targets : Targets n known' (t.ruled.zipIdx k) dispatch afterTag :=
    ⟨fun u => (lookup_lt t k u).trans_le hk, fun i r hr => hk' _ (hdispatch i r hr), hafter⟩
  refine (adds_drawBody hnil _ targets).fill fun b => (Fills.giveBody (hlt.trans_le hk : r < n)
    (by simp)).imp fun _ g _ hgiven hb w => ?_
  obtain ⟨rule, hrule, rfl⟩ := Option.map_eq_some_iff.1 hgiven
  rw [Grammar.reading_of_body (t := g.tree rule.body) (by simp [Grammar.body, hrule])]
  exact hb w

end

theorem lookup_ruled (t : Triggers) (n : Nat) : ((t.ruled.zipIdx n).lookup []).getD 0 = n :=
  t.machine.lookup_ruled n

/-- The first rule of free text describes how texts go on from the start. -/
theorem mem_reading_iff_goesOn (hnil : t.completed? [] = none) {n : Nat} {mayEnd : Bool}
    {dispatch : List (Option RuleId)} {afterTag : Option RuleId} {L : Reading}
    (h : ∀ x ∈ t.ruled.zipIdx n, ∀ w, w ∈ L x.2 ↔
      t.Reads (t.ruled.zipIdx n) mayEnd afterTag dispatch L x.1 w) (w : Bytes) :
    w ∈ L n ↔ t.GoesOn mayEnd
      (fun k => (dispatch[k]?.join).elim 0 L * afterTag.elim 1 L) [] w := by
  have goesOn : w ∈ L (((t.ruled.zipIdx n).lookup (t.settle [])).getD 0) ↔ t.GoesOn mayEnd
      (fun k => (dispatch[k]?.join).elim 0 L * afterTag.elim 1 L) [] w := by
    refine mem_iff_goesOn (F := fun u => L (((t.ruled.zipIdx n).lookup u).getD 0)) (fun x hx w => ?_) hnil
    obtain ⟨r, hr, hmem⟩ := exists_lookup (settle_mem_ruled hx) n
    simp only [hr, Option.getD_some]
    refine (h _ hmem w).trans ?_
    simp only [Reads, step_settle]
    rfl
  rw [← goesOn]
  simp [settle, lookup_ruled]

/-! ## Adding free text -/

section

open Draft (Known Adds Fills Contract)

variable {n : Nat} {known : Known} {dispatch : List (Option RuleId)} {σ : Type} [BEq σ] [LawfulBEq σ]
  {m : Machine σ} {f : σ → List Char}

omit [BEq σ] [LawfulBEq σ] in
theorem length_ruled (hm : m.Renames t.machine f) : m.ruled.length = t.ruled.length := by
  rw [← ruled_machine, hm.ruled, List.length_map]

/-- Gives the rules of free text their bodies, where the first of these rules is `k`. -/
def drawFree (t : Triggers) (mayEnd : Bool) (after : RuleId → Option RuleId) (dispatch : List (Option RuleId))
    (k : RuleId) : StateM Draft RuleId := do
  t.machine.drawBodies (t.ruled.zipIdx k) mayEnd (after k) dispatch
  return k

/-- Free text, which goes on after a tag as the rule says that `after` names. -/
theorem adds_freeText (hm : m.Renames t.machine f) (hnil : t.completed? [] = none)
    (hdispatch : ∀ (i : Nat) (r : RuleId), dispatch[i]?.join = some r → .rule r ∈ known) (name : String) (mayEnd : Bool)
    (after : RuleId → Option RuleId) (hafter : ∀ r, ∀ s ∈ after r, s = r) : Adds (.free n) known (do
      let text ← m.drawRules name
      m.drawBodies text mayEnd (after ((text.lookup m.start).getD 0)) dispatch
      return (text.lookup m.start).getD 0) (fun r => [.rule r]) fun r g => ∀ w, w ∈ g.reading r ↔ t.GoesOn mayEnd
        (fun k => (dispatch[k]?.join).elim 0 g.reading * (after r).elim 1 g.reading) [] w := by
  have first (k : Nat) : k < k + t.ruled.length := Nat.lt_add_of_pos_right (length_ruled_pos t)
  have run (d : Draft) : (do
      let text ← m.drawRules name
      m.drawBodies text mayEnd (after ((text.lookup m.start).getD 0)) dispatch
      return (text.lookup m.start).getD 0 : StateM Draft RuleId) d =
        t.drawFree mayEnd after dispatch d.rules.size
          (Draft.addFreshRules (List.replicate t.ruled.length name) d) := by
    change (do
      m.drawBodies (m.drawRules name d).1 mayEnd (after (((m.drawRules name d).1.lookup m.start).getD 0)) dispatch
      return ((m.drawRules name d).1.lookup m.start).getD 0 : StateM Draft RuleId) (m.drawRules name d).2 = _
    rw [m.drawRules_run]
    simp only [m.lookup_ruled, hm.drawBodies_ruled, length_ruled hm, ruled_machine, drawFree]
  refine (Adds.freshRules (Q := fun k r g => r = k ∧ ∀ w, w ∈ g.reading k ↔ t.GoesOn mayEnd
        (fun i => (dispatch[i]?.join).elim 0 g.reading * (after k).elim 1 g.reading) [] w)
    run fun k hk => ?_).imp ?_
  · simp only [List.length_replicate]
    refine Fills.bind (fills_drawBodies hnil le_rfl hdispatch fun s hs => hafter k s hs ▸ first k)
      (fun _ => Adds.declared (first k) fun g _ _ hg => ⟨rfl, mem_reading_iff_goesOn hnil hg⟩)
      (Set.union_empty _).symm (Set.disjoint_empty _)
  · rintro r g - ⟨k, -, rfl, h⟩
    exact h

/-- Gives the rules of leading text and of the free text after a tag their bodies, where `k` is the first of these
rules. -/
def drawLeading (t : Triggers) (dispatch : List (Option RuleId)) (k : RuleId) : StateM Draft RuleId := do
  t.machine.drawBodies (t.ruled.zipIdx k) false (some (k + t.ruled.length)) dispatch
  t.machine.drawBodies (t.ruled.zipIdx (k + t.ruled.length)) true (some (k + t.ruled.length)) dispatch
  return k

/-- Leading text, which does not end before a tag, and the free text after the tag. -/
theorem adds_leadingText (hm : m.Renames t.machine f) (hnil : t.completed? [] = none)
    (hdispatch : ∀ (i : Nat) (r : RuleId), dispatch[i]?.join = some r → .rule r ∈ known) (leading name : String) :
    Adds (.free n) known (do
      let before ← m.drawRules leading
      let after ← m.drawRules name
      m.drawBodies before false (some ((after.lookup m.start).getD 0)) dispatch
      m.drawBodies after true (some ((after.lookup m.start).getD 0)) dispatch
      return (before.lookup m.start).getD 0) (fun r => [.rule r]) fun r g => ∃ s : RuleId,
        (∀ w, w ∈ g.reading r ↔ t.GoesOn false
          (fun k => (dispatch[k]?.join).elim 0 g.reading * g.reading s) [] w) ∧
        ∀ w, w ∈ g.reading s ↔ t.GoesOn true
          (fun k => (dispatch[k]?.join).elim 0 g.reading * g.reading s) [] w := by
  let size := t.ruled.length
  have run (d : Draft) : (do
      let before ← m.drawRules leading
      let after ← m.drawRules name
      m.drawBodies before false (some ((after.lookup m.start).getD 0)) dispatch
      m.drawBodies after true (some ((after.lookup m.start).getD 0)) dispatch
      return (before.lookup m.start).getD 0 : StateM Draft RuleId) d = t.drawLeading dispatch d.rules.size
        (Draft.addFreshRules (List.replicate size leading ++ List.replicate size name) d) := by
    let first := m.drawRules leading d
    let second := m.drawRules name first.2
    change (do
      m.drawBodies first.1 false (some ((second.1.lookup m.start).getD 0)) dispatch
      m.drawBodies second.1 true (some ((second.1.lookup m.start).getD 0)) dispatch
      return (first.1.lookup m.start).getD 0 : StateM Draft RuleId) second.2 = _
    simp only [first, second, m.drawRules_run, m.lookup_ruled, hm.drawBodies_ruled, length_ruled hm,
      ruled_machine, Draft.addFreshRules_append, Draft.size_addFreshRules, List.length_replicate, size,
      drawLeading]
  refine (Adds.freshRules
    (Q := fun k r g => r = k ∧
      (∀ x ∈ t.ruled.zipIdx k, ∀ w, w ∈ g.reading x.2 ↔
        t.Reads (t.ruled.zipIdx k) false (some (k + size)) dispatch g.reading x.1 w) ∧
      ∀ x ∈ t.ruled.zipIdx (k + size), ∀ w, w ∈ g.reading x.2 ↔
        t.Reads (t.ruled.zipIdx (k + size)) true (some (k + size)) dispatch g.reading x.1 w)
    run fun k hk => ?_).imp ?_
  · simp only [List.length_append, List.length_replicate]
    have second : k + size < k + (size + size) := by have := length_ruled_pos t; omega
    refine Fills.bind (fills_drawBodies hnil (by omega) hdispatch (by simpa [size] using second)) (fun _ =>
      Fills.bind (fills_drawBodies hnil (by omega) (fun i r hr => by simp [hdispatch i r hr])
        (by simpa [size] using second)) (fun _ => Adds.declared ((Nat.le_add_right k size).trans_lt second)
          fun g _ _ hsecond hfirst => ⟨rfl, hfirst, hsecond⟩)
        (Set.union_empty _).symm (Set.disjoint_empty _))
      ?_ (Draft.disjoint_slotsFrom_replicate k size size)
    rw [List.replicate_add, Draft.slotsFrom_append, List.length_replicate]
  · rintro r g - ⟨k, -, rfl, hfirst, hsecond⟩
    exact ⟨_, mem_reading_iff_goesOn hnil hfirst, mem_reading_iff_goesOn hnil hsecond⟩

end

end Tag.Triggers
end ConstrainedDecoding
