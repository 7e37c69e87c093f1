import ConstrainedDecoding.Compiled.Basic
import ConstrainedDecoding.Proofs.Bitmask
import ConstrainedDecoding.Proofs.Vocabulary

/-!
# What token masks hold

A token mask tells each token as its state alone can tell it: the accepted tokens are those that the
table reads up to a state where a byte can be read or the rule ends, and a token is left out for
good only where reading comes to an end inside the rule.
-/
namespace ConstrainedDecoding

/-! ## Classes of tokens -/

namespace Table

variable {t : Table}

/-- Reading a byte string from a state comes to an end inside the rule: some byte leads nowhere, and
the rule can be left neither there nor before. -/
def Dies (t : Table) : StateId → Bytes → Prop
  | _, [] => False
  | s, b :: bs => t.mayLeave s = false ∧ ∀ s', t.next? s b = some s' → t.Dies s' bs

/-- What starts with bytes that cannot be read cannot be read. -/
theorem Dies.mono {bs : Bytes} : ∀ {s : StateId} {bs' : Bytes}, t.Dies s bs → bs <+: bs' →
    t.Dies s bs' := by
  induction bs with
  | nil => exact fun h _ => h.elim
  | cons b bs ih =>
    rintro s _ ⟨stays, dies⟩ ⟨more, rfl⟩
    exact ⟨stays, fun s' hs' => ih (dies s' hs') (List.prefix_append bs more)⟩

private theorem classifyFrom_eq_accepted {bs : Bytes} : ∀ {s : StateId} {left : Bool},
    t.classifyFrom s left bs = .accepted ↔
      ∃ s', t.run? s bs = some s' ∧ (t.scansAt s' = true ∨ t.accepts s' = true) := by
  induction bs with
  | nil =>
    intro s left
    by_cases h : t.scansAt s = true ∨ t.accepts s = true <;> simp [classifyFrom, run?, h]
  | cons b bs ih =>
    intro s left
    rw [classifyFrom, run?]
    cases t.next? s b with
    | none => cases left <;> cases t.mayLeave s <;> simp
    | some s' => exact ih

private theorem classifyFrom_eq_rejected {bs : Bytes} : ∀ {s : StateId} {left : Bool},
    t.classifyFrom s left bs = .rejected ↔ left = false ∧ t.Dies s bs := by
  induction bs with
  | nil =>
    intro s left
    by_cases h : t.scansAt s = true ∨ t.accepts s = true <;> simp [classifyFrom, Dies, h]
  | cons b bs ih =>
    intro s left
    rw [classifyFrom, Dies]
    cases t.next? s b with
    | none => cases left <;> cases t.mayLeave s <;> simp
    | some s' => simp [ih, and_assoc]

/-- A token is accepted if the table reads it up to a state where a byte can be read or the rule
ends. -/
theorem classify_eq_accepted {s : StateId} {bs : Bytes} : t.classify s bs = .accepted ↔
    ∃ s', t.run? s bs = some s' ∧ (t.scansAt s' = true ∨ t.accepts s' = true) :=
  classifyFrom_eq_accepted

/-- A token is rejected if reading it comes to an end inside the rule. -/
theorem classify_eq_rejected {s : StateId} {bs : Bytes} :
    t.classify s bs = .rejected ↔ t.Dies s bs := by
  simp [classify, classifyFrom_eq_rejected]

end Table

/-! ## Masks of states -/

namespace TokenMask

variable {v : Vocabulary}

/-- The token at a place has a class. -/
def HasClass (t : Table) (s : StateId) (v : Vocabulary) (verdict : Verdict) (j id : Nat) : Prop :=
  v.sortedIds[j]? = some id ∧ t.classify s (v.bytesOf id) = verdict

variable {t : Table} {s : StateId}

theorem HasClass.unique {verdict verdict' : Verdict} {j id id' : Nat}
    (h : HasClass t s v verdict j id) (h' : HasClass t s v verdict' j id') :
    id = id' ∧ verdict = verdict' := by
  obtain rfl : id = id' := Option.some.inj (h.1.symm.trans h'.1)
  exact ⟨rfl, h.2.symm.trans h'.2⟩

/-- All tokens of the run of a rejected token are rejected. -/
theorem rejected_of_run (hv : v.Regular) {i id : Nat} (h : HasClass t s v .rejected i id)
    {j : Nat} (hij : i ≤ j) (hj : j < max (v.runEnds.getD i 0) (i + 1)) {id' : Nat}
    (hid : v.sortedIds[j]? = some id') : HasClass t s v .rejected j id' := by
  refine ⟨hid, ?_⟩
  rcases hij.eq_or_lt with rfl | hlt
  · obtain rfl : id = id' := Option.some.inj (h.1.symm.trans hid)
    exact h.2
  · have hi : i < v.sortedIds.size := (Array.getElem?_eq_some_iff.1 h.1).1
    have starts := hv.starts i hi j hlt (by omega)
    simp only [Array.getD_eq_getD_getElem?, h.1, hid, Option.getD_some] at starts
    exact Table.classify_eq_rejected.2 ((Table.classify_eq_rejected.1 h.2).mono starts)

/-- The places from `i` on of the tokens of a class. -/
def places (t : Table) (s : StateId) (v : Vocabulary) (verdict : Verdict) (i : Nat) : List Nat :=
  (List.range' i (v.sortedIds.size - i)).filter fun j =>
    t.classify s (v.bytesOf (v.sortedIds.getD j 0)) = verdict

variable {verdict : Verdict} {i : Nat}

theorem pairwise_places : (places t s v verdict i).Pairwise (· < ·) :=
  (List.pairwise_lt_range' ..).filter _

theorem mem_places {j : Nat} :
    j ∈ places t s v verdict i ↔ i ≤ j ∧ ∃ id, HasClass t s v verdict j id := by
  simp only [places, List.mem_filter, List.mem_range'_1, decide_eq_true_eq, HasClass]
  constructor
  · rintro ⟨⟨hle, hlt⟩, hclass⟩
    have hj : j < v.sortedIds.size := by omega
    exact ⟨hle, _, Array.getElem?_eq_getElem hj,
      by simpa [Array.getD_eq_getD_getElem?, hj] using hclass⟩
  · rintro ⟨hle, id, hid, hclass⟩
    have hj : j < v.sortedIds.size := (Array.getElem?_eq_some_iff.1 hid).1
    exact ⟨⟨hle, by omega⟩, by simpa [Array.getD_eq_getD_getElem?, hid] using hclass⟩

theorem places_of_le (h : v.sortedIds.size ≤ i) : places t s v verdict i = [] := by
  simp [places, Nat.sub_eq_zero_of_le h]

theorem places_eq_cons {id : Nat} (h : HasClass t s v verdict i id) :
    places t s v verdict i = i :: places t s v verdict (i + 1) := by
  obtain ⟨hid, hclass⟩ := h
  have hi : i < v.sortedIds.size := (Array.getElem?_eq_some_iff.1 hid).1
  have next : v.sortedIds.size - i = (v.sortedIds.size - (i + 1)) + 1 := by omega
  rw [places, next, List.range'_succ, List.filter_cons_of_pos, places]
  simpa [Array.getD_eq_getD_getElem?, hid] using hclass

theorem places_eq_succ (h : ∀ id, ¬ HasClass t s v verdict i id) :
    places t s v verdict i = places t s v verdict (i + 1) := by
  rcases lt_or_ge i v.sortedIds.size with hi | hi
  · have next : v.sortedIds.size - i = (v.sortedIds.size - (i + 1)) + 1 := by omega
    rw [places, next, List.range'_succ, List.filter_cons_of_neg, places]
    intro hclass
    exact h _ ⟨Array.getElem?_eq_getElem hi, by simpa [Array.getD_eq_getD_getElem?, hi] using hclass⟩
  · rw [places_of_le hi, places_of_le (hi.trans (Nat.le_succ i))]

/-- A stretch without tokens of a class can be skipped. -/
theorem places_skip {e : Nat} (hle : i ≤ e)
    (h : ∀ j, i ≤ j → j < e → ∀ id, ¬ HasClass t s v verdict j id) :
    places t s v verdict i = places t s v verdict e := by
  induction e, hle using Nat.le_induction with
  | base => rfl
  | succ e hle ih =>
    rw [ih fun j hij hj => h j hij (by omega), places_eq_succ (h e hle (Nat.lt_succ_self e))]

/-- The accepted tokens and the places of the uncertain ones, in order, whatever is skipped. -/
theorem classes_eq (hv : v.Regular) (t : Table) (s : StateId) (i : Nat) :
    classes t s v i = ((places t s v .accepted i).map (v.sortedIds.getD · 0),
      places t s v .uncertain i) := by
  have other {verdict verdict' : Verdict} {i id : Nat} (h : HasClass t s v verdict i id)
      (hne : verdict ≠ verdict') (id' : Nat) : ¬ HasClass t s v verdict' i id' :=
    fun h' => hne (h.unique h').2
  fun_induction classes t s v i with
  | case1 i h id hclass accepted uncertain heq ih =>
    have here : HasClass t s v .accepted i id := ⟨Array.getElem?_eq_getElem h, hclass⟩
    obtain ⟨rfl, rfl⟩ := Prod.mk.inj (heq.symm.trans ih)
    rw [places_eq_cons here, places_eq_succ (other here (by decide)), List.map_cons]
    simp [Array.getD_eq_getD_getElem?, here.1]
  | case2 i h id hclass accepted uncertain heq ih =>
    have here : HasClass t s v .uncertain i id := ⟨Array.getElem?_eq_getElem h, hclass⟩
    obtain ⟨rfl, rfl⟩ := Prod.mk.inj (heq.symm.trans ih)
    rw [places_eq_cons here, places_eq_succ (other here (by decide))]
  | case3 i h id hclass ih =>
    have here : HasClass t s v .rejected i id := ⟨Array.getElem?_eq_getElem h, hclass⟩
    have skip {verdict : Verdict} (hne : .rejected ≠ verdict) : places t s v verdict i =
        places t s v verdict (max (v.runEnds.getD i 0) (i + 1)) :=
      places_skip (by omega) fun j hij hj id' h' =>
        other (rejected_of_run hv here hij hj h'.1) hne id' h'
    rw [ih, skip (by decide), skip (by decide)]
  | case4 i h => simp [places_of_le (not_lt.1 h)]

/-- The accepted tokens and the places of the uncertain tokens are found. -/
theorem classes_spec (hv : v.Regular) (t : Table) (s : StateId) (i : Nat) :
    (∀ id, id ∈ (classes t s v i).1 ↔ ∃ j, i ≤ j ∧ HasClass t s v .accepted j id) ∧
    ∀ j, j ∈ (classes t s v i).2 ↔ i ≤ j ∧ ∃ id, HasClass t s v .uncertain j id := by
  rw [classes_eq hv]
  refine ⟨fun id => ?_, fun j => mem_places⟩
  simp only [List.mem_map, mem_places]
  constructor
  · rintro ⟨j, ⟨hle, id', h⟩, rfl⟩
    have here : v.sortedIds.getD j 0 = id' := by simp [Array.getD_eq_getD_getElem?, h.1]
    exact ⟨j, hle, here ▸ h⟩
  · rintro ⟨j, hle, h⟩
    exact ⟨j, ⟨hle, id, h⟩, by simp [Array.getD_eq_getD_getElem?, h.1]⟩

@[simp] theorem uncertain_ofClasses (size : Nat) (accepted uncertain : List Nat) :
    (ofClasses size accepted uncertain).uncertain = uncertain := by
  simp only [ofClasses]
  split <;> rfl

theorem size_applyTo (m : TokenMask) (row : Bitmask) : (m.applyTo row).size = row.size := by
  unfold applyTo
  split
  · exact Bitmask.size_foldl_allow _ _
  · exact Bitmask.size_union _ _

/-- Both forms of a mask allow the accepted tokens. -/
theorem allows_applyTo_ofClasses {size : Nat} {accepted uncertain : List Nat}
    (h : ∀ id ∈ accepted, id < size) {row : Bitmask} (hrow : row.size = Bitmask.wordsFor size)
    (id : Nat) : ((ofClasses size accepted uncertain).applyTo row).allows id = true ↔
      id ∈ accepted ∨ row.allows id = true := by
  have lt (id : Nat) (hid : id ∈ accepted) : id / 32 < Bitmask.wordsFor size :=
    Bitmask.div_lt_wordsFor (h id hid)
  simp only [ofClasses]
  split
  · rw [applyTo, Bitmask.allows_foldl_allow _ fun id hid =>
      hrow.symm ▸ lt id (List.mem_mergeSort.1 hid), List.mem_mergeSort]
  · rw [applyTo, Bitmask.allows_union (by rw [Bitmask.size_foldl_allow, Bitmask.size_zero, hrow]),
      Bitmask.allows_foldl_allow _ fun id hid => by rw [Bitmask.size_zero]; exact lt id hid,
      Bitmask.allows_zero, or_comm]
    simp

/-- The mask of a state allows the accepted tokens. -/
theorem allows_ofState (hv : v.Regular) (t : Table) (s : StateId) {row : Bitmask}
    (hrow : row.size = Bitmask.wordsFor v.size) (id : Nat) :
    ((ofState t v s).applyTo row).allows id = true ↔
      (id ∈ v.sortedIds ∧ t.classify s (v.bytesOf id) = .accepted) ∨ row.allows id = true := by
  have accepted (id : Nat) : id ∈ (classes t s v 0).1 ↔
      id ∈ v.sortedIds ∧ t.classify s (v.bytesOf id) = .accepted := by
    rw [(classes_spec hv t s 0).1, Array.mem_iff_getElem?]
    simp [HasClass]
  rw [ofState, allows_applyTo_ofClasses (fun id hid => hv.lt_size ((accepted id).1 hid).1) hrow,
    accepted]

/-- The mask of a state leaves the places of the uncertain tokens open. -/
theorem mem_uncertain_ofState (hv : v.Regular) (t : Table) (s : StateId) (j : Nat) :
    j ∈ (ofState t v s).uncertain ↔ ∃ id, HasClass t s v .uncertain j id := by
  rw [ofState, uncertain_ofClasses, (classes_spec hv t s 0).2]
  simp

end TokenMask

/-! ## The pool of masks -/

namespace MaskPool

variable {v : Vocabulary}

/-- The mask that a state should have. -/
def maskOf (v : Vocabulary) (t : Table) (s : StateId) : TokenMask :=
  if t.scansAt s then .ofState t v s else .empty

/-- The masks of the states of a table stand at some places. -/
def Stands (v : Vocabulary) (masks : Array TokenMask) (t : Table) (places : List Nat) : Prop :=
  List.Forall₂ (fun s i => masks[i]? = some (maskOf v t s)) (List.range t.size) places

/-- Masks were added. -/
def Grown (p p' : Growing) : Prop := ∃ more, p'.masks = p.masks ++ more

theorem Grown.refl (p : Growing) : Grown p p := ⟨#[], by simp⟩

theorem Grown.trans {p₁ p₂ p₃ : Growing} (h : Grown p₁ p₂) (h' : Grown p₂ p₃) : Grown p₁ p₃ := by
  obtain ⟨more, hmore⟩ := h
  obtain ⟨more', hmore'⟩ := h'
  exact ⟨more ++ more', by rw [hmore', hmore, Array.append_assoc]⟩

theorem Grown.getElem? {p p' : Growing} (h : Grown p p') {i : Nat} {m : TokenMask}
    (hi : p.masks[i]? = some m) : p'.masks[i]? = some m := by
  obtain ⟨more, hmore⟩ := h
  rw [hmore, Array.getElem?_append_left (Array.getElem?_eq_some_iff.1 hi).1, hi]

theorem Grown.stands {p p' : Growing} (h : Grown p p') {t : Table} {places : List Nat}
    (stands : Stands v p.masks t places) : Stands v p'.masks t places :=
  stands.imp fun _ _ => h.getElem?

/-- What is noted about masks under construction is right. -/
structure Noted (v : Vocabulary) (p : Growing) : Prop where
  empty : ∀ i, p.empty = some i → p.masks[i]? = some .empty
  known : ∀ t places, p.known[t]? = some places → Stands v p.masks t places.toList

private theorem noted_push {p : Growing} (h : Noted v p) (m : TokenMask) :
    Noted v { p with masks := p.masks.push m } where
  empty i hi := Grown.getElem? ⟨#[m], by simp⟩ (h.empty i hi)
  known t places ht := Grown.stands ⟨#[m], by simp⟩ (h.known t places ht)

/-- Each state finds its mask. -/
theorem statePlace_spec (t : Table) (s : StateId) (p : Growing) (h : Noted v p) :
    Noted v (statePlace v t s p).2 ∧ Grown p (statePlace v t s p).2 ∧
      (statePlace v t s p).2.masks[(statePlace v t s p).1]? = some (maskOf v t s) := by
  unfold statePlace maskOf
  split
  · exact ⟨noted_push h _, ⟨#[.ofState t v s], by simp [addMask]⟩, by simp [addMask]⟩
  · unfold emptyPlace
    split
    · rename_i i hi
      exact ⟨h, .refl p, h.empty i hi⟩
    · refine ⟨⟨fun i hi => ?_, (noted_push h .empty).known⟩, ⟨#[.empty], by simp⟩, by simp⟩
      obtain rfl : p.masks.size = i := by simpa using hi
      simp

private theorem tablePlaces_of_known {p : Growing} {t : Table} {places : Array Nat}
    (h : p.known[t]? = some places) : tablePlaces v t p = (places, p) := by
  simp only [tablePlaces, bind, StateT.bind, get, getThe, MonadStateOf.get, StateT.get, pure, h]
  rfl

private theorem tablePlaces_of_new {p : Growing} {t : Table} (h : p.known[t]? = none) :
    tablePlaces v t p =
      note t ((List.range t.size).mapM (statePlace v t) p).1.toArray
        ((List.range t.size).mapM (statePlace v t) p).2 := by
  simp only [tablePlaces, bind, StateT.bind, get, getThe, MonadStateOf.get, StateT.get, pure, h]
  rfl

/-- Each table finds the masks of its states, its own or those of an equal table. -/
theorem tablePlaces_spec (t : Table) (p : Growing) (h : Noted v p) :
    Noted v (tablePlaces v t p).2 ∧ Grown p (tablePlaces v t p).2 ∧
      Stands v (tablePlaces v t p).2.masks t (tablePlaces v t p).1.toList := by
  cases hknown : p.known[t]? with
  | some places =>
    rw [tablePlaces_of_known hknown]
    exact ⟨h, .refl p, h.known t places hknown⟩
  | none =>
    rw [tablePlaces_of_new hknown]
    obtain ⟨noted, grown, stands⟩ := StateM.forall₂_of_mapM (f := statePlace v t) (I := Noted v)
      (R := Grown) (Q := fun s i p => p.masks[i]? = some (maskOf v t s)) Grown.refl
      (fun _ _ _ => Grown.trans) (fun _ _ _ _ h h' => h'.getElem? h) (statePlace_spec t)
      (List.range t.size) p h
    refine ⟨⟨noted.empty, fun t' places ht' => ?_⟩, grown, stands⟩
    simp only [note, Std.HashMap.getElem?_insert] at ht'
    split at ht'
    · obtain rfl : t = t' := by simpa using ‹(t == t') = true›
      obtain rfl := Option.some.inj ht'
      exact stands
    · exact noted.known t' places ht'

/-- The masks of all tables stand at the places of the pool. -/
theorem stands_ofTables (v : Vocabulary) (tables : Array Table) :
    List.Forall₂ (fun t places => Stands v (ofTables v tables).masks t places.toList) tables.toList
      (ofTables v tables).places.toList := by
  obtain ⟨-, -, stands⟩ := StateM.forall₂_of_mapM (f := tablePlaces v) (I := Noted v) (R := Grown)
    (Q := fun t places p => Stands v p.masks t places.toList) Grown.refl (fun _ _ _ => Grown.trans)
    (fun _ _ _ _ h h' => h'.stands h) tablePlaces_spec tables.toList ⟨#[], none, {}⟩
    ⟨by simp, by simp⟩
  exact stands

/-- Each state of each table finds its mask. -/
theorem ofTables_spec (v : Vocabulary) (tables : Array Table) {r : RuleId} {t : Table}
    (ht : tables[r]? = some t) {s : StateId} (hs : s < t.size) :
    ∃ places i, (ofTables v tables).places[r]? = some places ∧ places[s]? = some i ∧
      (ofTables v tables).masks[i]? = some (maskOf v t s) := by
  obtain ⟨places, hplaces, stands⟩ := getElem?_of_forall₂ (stands_ofTables v tables) (by simpa using ht)
  obtain ⟨i, hi, hmask⟩ := getElem?_of_forall₂ stands (List.getElem?_range hs)
  exact ⟨places, i, by simpa using hplaces, by simpa using hi, hmask⟩

end MaskPool

namespace Compiled

/-- Each state of a compiled grammar has the mask of its table, whatever is shared. -/
theorem mask_eq {g : Grammar} {v : Vocabulary} {c : Compiled} (h : compile g v = .ok c) {r : RuleId}
    (hr : r < c.tables.size) {s : StateId} (hs : s < (c.table r).size) :
    c.mask r s = MaskPool.maskOf v (c.table r) s := by
  obtain ⟨l, -, h⟩ := Except.bind_eq_ok.1 h
  obtain ⟨ts, -, h⟩ := Except.bind_eq_ok.1 h
  obtain rfl := Except.ok.inj h
  set c : Compiled := ⟨g, l, v, ts, .ofTables v ts⟩ with hc
  have table : ts[r]? = some (c.table r) := by
    simp [hc, Compiled.table, Array.getD_eq_getD_getElem?, show r < ts.size from hr]
  obtain ⟨places, i, hplaces, hi, hmask⟩ := MaskPool.ofTables_spec v ts table hs
  simp [mask, hc, Array.getD_eq_getD_getElem?, hplaces, hi, hmask]

end Compiled

end ConstrainedDecoding
