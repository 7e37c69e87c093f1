import ConstrainedDecoding.Proofs.Conversions

/-!
# What schemas are like

The schemas that a document asks for are all read from parts of the document, so their alternatives
are not empty, and their bounds are in order and as small as they were written.
-/
namespace ConstrainedDecoding.Schema

open Json (Value)

/-! ## Parts of documents -/

/-- A value stands somewhere in a document. -/
inductive PartOf (document : Value) : Value → Prop
  | self : PartOf document document
  | item {items v} : PartOf document (.array items) → v ∈ items → PartOf document v
  | member {members key v} : PartOf document (.object members) → (key, v) ∈ members → PartOf document v

variable {document : Value} {strict : Bool}

theorem mem_of_lookup {key : String} {members : List (String × Value)} {v : Value}
    (h : Value.lookup key members = some v) : (key, v) ∈ members := by
  induction members with
  | nil => cases h
  | cons m rest ih =>
    obtain ⟨k, w⟩ := m
    rw [Value.lookup] at h
    split at h
    · rename_i hk
      obtain rfl := Option.some.inj h
      exact hk ▸ List.mem_cons_self
    · exact List.mem_cons_of_mem _ (ih h)

theorem PartOf.lookup {key : String} {members : List (String × Value)} {v : Value}
    (h : PartOf document (.object members)) (hv : Value.lookup key members = some v) : PartOf document v :=
  h.member (mem_of_lookup hv)

theorem PartOf.step? {v w : Value} {step : List Char} (h : PartOf document v) (hw : v.step? step = some w) :
    PartOf document w := by
  unfold Value.step? at hw
  split at hw
  · exact h.lookup hw
  · obtain ⟨i, -, hi⟩ := Option.bind_eq_some_iff.1 hw
    exact h.item (List.mem_of_getElem? hi)
  · cases hw

theorem PartOf.pointer? {v w : Value} {pointer : String} (h : PartOf document v)
    (hw : v.pointer? pointer = some w) : PartOf document w := by
  unfold Value.pointer? at hw
  split at hw
  · obtain rfl := Option.some.inj hw
    exact h
  · rename_i rest _
    generalize Json.cutAtSlashes rest = steps at hw
    induction steps generalizing v with
    | nil =>
      obtain rfl := Option.some.inj hw
      exact h
    | cons step steps ih =>
      rw [List.foldlM_cons] at hw
      obtain ⟨u, hu, hw⟩ := Option.bind_eq_some_iff.1 hw
      exact ih (h.step? hu) hw
  · cases hw

/-- The counts in a document can be written as bounds of repetitions. -/
def Limited (document : Value) : Prop := ∀ members, PartOf document (.object members) →
  ∀ key ∈ ["minLength", "maxLength", "minItems", "maxItems"], ∀ n ∈ naturalUnder members key,
    n ≤ Ebnf.Quantifier.limit

mutual

/-- Whether all whole numbers in a value can be written as bounds of repetitions. -/
def small : Value → Bool
  | .array items => smallItems items
  | .object members => smallMembers members
  | v => (natural? v).all (· ≤ Ebnf.Quantifier.limit)

def smallItems : List Value → Bool
  | [] => true
  | v :: rest => small v && smallItems rest

def smallMembers : List (String × Value) → Bool
  | [] => true
  | (_, v) :: rest => small v && smallMembers rest

end

theorem small_of_mem_items {items : List Value} {v : Value} (h : smallItems items = true) (hv : v ∈ items) :
    small v = true := by
  induction items with
  | nil => cases hv
  | cons w rest ih =>
    rw [smallItems, Bool.and_eq_true] at h
    rcases List.mem_cons.1 hv with rfl | hv
    · exact h.1
    · exact ih h.2 hv

theorem small_of_mem_members {members : List (String × Value)} {m : String × Value}
    (h : smallMembers members = true) (hm : m ∈ members) : small m.2 = true := by
  induction members with
  | nil => cases hm
  | cons w rest ih =>
    obtain ⟨k, v⟩ := w
    rw [smallMembers, Bool.and_eq_true] at h
    rcases List.mem_cons.1 hm with rfl | hm
    · exact h.1
    · exact ih h.2 hm

theorem PartOf.small {v : Value} (h : PartOf document v) (hdocument : small document = true) : small v = true := by
  induction h with
  | self => exact hdocument
  | item _ hw ih => exact small_of_mem_items (by simpa only [Schema.small] using ih) hw
  | member _ hw ih => exact small_of_mem_members (by simpa only [Schema.small] using ih) hw

/-- A document without great numbers has no great counts. -/
theorem limited_of_small (h : small document = true) : Limited document := by
  intro members hpart key _ n hn
  obtain ⟨v, hv, hn⟩ := Option.bind_eq_some_iff.1 hn
  have hsmall := (hpart.lookup hv).small h
  cases v with
  | number x => simpa only [Schema.small, hn, Option.all_some, decide_eq_true_eq] using hsmall
  | _ => cases hn

/-! ## Schemas that are read -/

/-- A schema is read from a part of a document. -/
inductive ReadFrom (document : Value) (strict : Bool) : Schema → Prop
  | value {v} : PartOf document v → ReadFrom document strict (ofValue strict v)
  | members {ms} : PartOf document (.object ms) → ReadFrom document strict (ofMembers strict ms)
  | type {ms} (name : String) : PartOf document (.object ms) → ReadFrom document strict (ofType strict ms name)
  | invalid (cause : Cause) : ReadFrom document strict (.invalid cause)
  | any : ReadFrom document strict .any

/-- Bounds are in order. -/
def Ordered {α : Type} [LE α] (lo hi : Option α) : Prop := ∀ l ∈ lo, ∀ h ∈ hi, l ≤ h

/-- A bound of numbers is one that can be read. -/
def Moderate (bound : Option Int) : Prop := ∀ z ∈ bound, z.natAbs ≤ boundLimit + 1

/-- What holds of a schema when it is read, apart from the schemas inside it. -/
def Shaped : Schema → Prop
  | .values vs => vs ≠ []
  | .anyOf _ alternatives | .types alternatives => alternatives ≠ []
  | .string least most => ∀ m ∈ most, least ≤ m
  | .integer lo hi => Ordered lo hi ∧ Moderate lo ∧ Moderate hi
  | .number lo hi => Moderate lo ∧ Moderate hi
  | .array initial more least most => (∀ m ∈ most, least ≤ m ∧ initial.length ≤ m) ∧
    (more = none → least ≤ initial.length)
  | _ => True

/-- The counts of a schema can be written as bounds of repetitions. -/
def Counted : Schema → Prop
  | .string least most | .array _ _ least most =>
    least ≤ Ebnf.Quantifier.limit ∧ ∀ m ∈ most, m ≤ Ebnf.Quantifier.limit
  | _ => True

/-! ## Bounds of numbers -/

section

variable {ms : List (String × Value)} {key : String}

theorem toRatio_den_pos (x : Magnitude) : 0 < x.toRatio.2 := by
  unfold Magnitude.toRatio
  split
  · exact Nat.one_pos
  · exact Nat.pow_pos (by decide)

/-- A bound that is read is below the limit. -/
theorem boundUnder_eq_ok {x : Bool × Magnitude} (h : boundUnder ms key = .ok (some x)) :
    x.2.toRatio.1 < boundLimit * x.2.toRatio.2 := by
  unfold boundUnder at h
  split at h
  · cases h
  · split at h
    · simp only [] at h
      split at h
      · rename_i hlt
        obtain rfl := Option.some.inj (Except.ok.inj h)
        exact hlt
      · cases h
    · cases h

theorem floor_lt {x : Magnitude} (h : x.toRatio.1 < boundLimit * x.toRatio.2) : x.floor < boundLimit :=
  Nat.div_lt_of_lt_mul (Nat.mul_comm _ _ ▸ h)

theorem ceil_le {x : Magnitude} (h : x.toRatio.1 < boundLimit * x.toRatio.2) : x.ceil ≤ boundLimit := by
  have hpos := toRatio_den_pos x
  refine Nat.lt_succ_iff.1 (Nat.div_lt_of_lt_mul ?_)
  rw [Nat.mul_succ, Nat.mul_comm]
  omega

theorem natAbs_floorOf_le {x : Bool × Magnitude} (h : x.2.toRatio.1 < boundLimit * x.2.toRatio.2) :
    (floorOf x).natAbs ≤ boundLimit := by
  have := floor_lt h
  have := ceil_le h
  unfold floorOf
  split <;> omega

theorem natAbs_ceilOf_le {x : Bool × Magnitude} (h : x.2.toRatio.1 < boundLimit * x.2.toRatio.2) :
    (ceilOf x).natAbs ≤ boundLimit := by
  have := floor_lt h
  have := ceil_le h
  unfold ceilOf
  split <;> omega

theorem Moderate.tighter {pick : Int → Int → Int} (hpick : ∀ a b, pick a b = a ∨ pick a b = b) {a b : Option Int}
    (ha : Moderate a) (hb : Moderate b) : Moderate (tighter pick a b) := by
  intro z hz
  cases a with
  | none =>
    cases b with
    | none => cases hz
    | some b => exact hb z hz
  | some a =>
    cases b with
    | none => exact ha z hz
    | some b =>
      obtain rfl : pick a b = z := Option.some.inj hz
      rcases hpick a b with h | h <;> rw [h]
      · exact ha a rfl
      · exact hb b rfl

theorem moderate_of_wholeBounds {lo hi : Option Int} (h : wholeBounds ms = .ok (lo, hi)) :
    Moderate lo ∧ Moderate hi := by
  simp only [wholeBounds, Except.bind_eq_ok] at h
  obtain ⟨minimum, hminimum, above, habove, maximum, hmaximum, below, hbelow, h⟩ := h
  obtain ⟨rfl, rfl⟩ := Prod.mk.inj (Except.ok.inj h)
  have bound {key : String} {o : Option (Bool × Magnitude)} (ho : boundUnder ms key = .ok o)
      {f : Bool × Magnitude → Int}
      (hf : ∀ x : Bool × Magnitude, x.2.toRatio.1 < boundLimit * x.2.toRatio.2 → (f x).natAbs ≤ boundLimit + 1) :
      Moderate (o.map f) := by
    intro z hz
    obtain ⟨x, rfl, rfl⟩ := Option.mem_map.1 hz
    exact hf x (boundUnder_eq_ok ho)
  refine ⟨.tighter max_choice ?_ ?_, .tighter min_choice ?_ ?_⟩
  · exact bound hminimum fun x hx => (natAbs_ceilOf_le hx).trans (Nat.le_succ _)
  · refine bound habove fun x hx => ?_
    have := natAbs_floorOf_le hx
    omega
  · exact bound hmaximum fun x hx => (natAbs_floorOf_le hx).trans (Nat.le_succ _)
  · refine bound hbelow fun x hx => ?_
    have := natAbs_ceilOf_le hx
    omega

/-! ## Schemas and the schemas inside them -/

/-- The values that a schema spells out. -/
def literals : Schema → List Value
  | .values vs => vs
  | _ => []

/-- What is known of a schema that is read from a part of a document. -/
structure Proper (document : Value) (strict : Bool) (s : Schema) : Prop where
  shaped : Shaped s
  counted : Limited document → Counted s
  literals : ∀ v ∈ s.literals, PartOf document v
  children : ∀ t ∈ s.children, ReadFrom document strict t

theorem proper_invalid (cause : Cause) : Proper document strict (.invalid cause) :=
  ⟨trivial, fun _ => trivial, List.forall_mem_nil _, List.forall_mem_nil _⟩

theorem proper_any : Proper document strict .any := ⟨trivial, fun _ => trivial, List.forall_mem_nil _, List.forall_mem_nil _⟩

theorem proper_pattern (text : String) : Proper document strict (.pattern text) :=
  ⟨trivial, fun _ => trivial, List.forall_mem_nil _, List.forall_mem_nil _⟩

theorem naturalUnder_le (h : PartOf document (.object ms)) (hdocument : Limited document)
    (hkey : key ∈ ["minLength", "maxLength", "minItems", "maxItems"]) :
    (naturalUnder ms key).getD 0 ≤ Ebnf.Quantifier.limit ∧ ∀ n ∈ naturalUnder ms key, n ≤ Ebnf.Quantifier.limit := by
  have := hdocument ms h key hkey
  refine ⟨?_, this⟩
  cases hn : naturalUnder ms key with
  | none => exact Nat.zero_le _
  | some n => exact this n hn

theorem proper_ofString (h : PartOf document (.object ms)) : Proper document strict (ofString ms) := by
  unfold ofString
  dsimp only
  split
  · exact proper_pattern _
  · exact proper_pattern _
  · exact proper_invalid _
  · split
    · exact proper_invalid _
    · rename_i horder
      refine ⟨fun m hm => ?_, fun hdocument => ⟨(naturalUnder_le h hdocument (by simp)).1,
        (naturalUnder_le h hdocument (by simp)).2⟩, List.forall_mem_nil _, List.forall_mem_nil _⟩
      rw [Option.mem_def] at hm
      simpa [hm] using horder

theorem proper_ofBounds (whole : Bool) : Proper document strict (ofBounds ms whole) := by
  unfold ofBounds
  split
  · exact proper_invalid _
  · rename_i lo hi hbounds
    obtain ⟨hlo, hhi⟩ := moderate_of_wholeBounds hbounds
    split
    · split
      · split
        · exact proper_invalid _
        · rename_i a b hle
          refine ⟨⟨?_, hlo, hhi⟩, fun _ => trivial, List.forall_mem_nil _, List.forall_mem_nil _⟩
          rintro _ ⟨⟩ _ ⟨⟩
          exact Int.not_lt.1 hle
      · rename_i hsome
        exact ⟨⟨fun l hl h hh => (hsome l h hl hh).elim, hlo, hhi⟩, fun _ => trivial, List.forall_mem_nil _,
          List.forall_mem_nil _⟩
    · exact ⟨⟨hlo, hhi⟩, fun _ => trivial, List.forall_mem_nil _, List.forall_mem_nil _⟩

theorem mem_ofValues {vs : List Value} : ∀ {s : Schema}, s ∈ ofValues strict vs → ∃ v ∈ vs, s = ofValue strict v := by
  induction vs with
  | nil =>
    rw [ofValues]
    exact fun h => absurd h List.not_mem_nil
  | cons v vs ih =>
    rw [ofValues]
    intro s hs
    rcases List.mem_cons.1 hs with rfl | hs
    · exact ⟨v, List.mem_cons_self, rfl⟩
    · obtain ⟨w, hw, rfl⟩ := ih hs
      exact ⟨w, List.mem_cons_of_mem _ hw, rfl⟩

theorem mem_ofProperties {ps : List (String × Value)} : ∀ {p : String × Schema}, p ∈ ofProperties strict ps →
    ∃ v, (p.1, v) ∈ ps ∧ p.2 = ofValue strict v := by
  induction ps with
  | nil =>
    rw [ofProperties]
    exact fun h => absurd h List.not_mem_nil
  | cons p ps ih =>
    obtain ⟨k, v⟩ := p
    rw [ofProperties]
    intro q hq
    rcases List.mem_cons.1 hq with rfl | hq
    · exact ⟨v, List.mem_cons_self, rfl⟩
    · obtain ⟨w, hw, heq⟩ := ih hq
      exact ⟨w, List.mem_cons_of_mem _ hw, heq⟩

theorem readFrom_ofValues {vs : List Value} (h : PartOf document (.array vs)) : ∀ s ∈ ofValues strict vs,
    ReadFrom document strict s := by
  intro s hs
  obtain ⟨v, hv, rfl⟩ := mem_ofValues hs
  exact .value (h.item hv)

theorem checkItems_eq_ok {initial least : Nat} {more : Bool} {most : Option Nat} :
    checkItems initial more least most = .ok () ↔
      (∀ m ∈ most, least ≤ m ∧ initial ≤ m) ∧ (more = false → least ≤ initial) := by
  unfold checkItems
  constructor
  · intro h
    split_ifs at h with horder hfewer hmore
    refine ⟨fun m hm => ?_, fun hfalse => ?_⟩
    · rw [Option.mem_def] at hm
      simp only [hm, Option.any_some, decide_eq_true_eq] at horder hfewer
      omega
    · simpa [hfalse] using hmore
  · rintro ⟨hmost, hmore⟩
    have horder (n : Nat) (h : ∀ m ∈ most, n ≤ m) : ¬ most.any (· < n) = true := by
      simpa [Option.any_eq_true] using h
    rw [if_neg (horder least fun m hm => (hmost m hm).1), if_neg (horder initial fun m hm => (hmost m hm).2), if_neg]
    cases more with
    | true => simp
    | false => simpa using hmore rfl

theorem proper_ofArray (h : PartOf document (.object ms)) : Proper document strict (ofArray strict ms) := by
  rw [ofArray]
  split
  · exact proper_invalid _
  rename_i initial hinitial
  split
  · exact proper_invalid _
  rename_i hcheck
  obtain ⟨horder, hmore⟩ := checkItems_eq_ok.1 hcheck
  refine ⟨⟨horder, fun hnone => hmore (by rw [hnone]; rfl)⟩, fun hdocument =>
    ⟨(naturalUnder_le h hdocument (by simp)).1, (naturalUnder_le h hdocument (by simp)).2⟩, List.forall_mem_nil _,
      fun t ht => ?_⟩
  rcases List.mem_append.1 ht with ht | ht
  · split at hinitial
    · rename_i items hitems
      obtain rfl := Except.ok.inj hinitial
      exact readFrom_ofValues (h.lookup hitems) t ht
    · cases hinitial
    · obtain rfl := Except.ok.inj hinitial
      cases ht
  · rw [Option.mem_toList] at ht
    split at ht
    · cases ht
    · rename_i v _ hv
      obtain rfl := Option.some.inj ht
      exact .value (h.lookup hv)
    · split at ht
      · cases ht
      · obtain rfl := Option.some.inj ht
        exact .any

theorem proper_ofObject (h : PartOf document (.object ms)) : Proper document strict (ofObject strict ms) := by
  rw [ofObject]
  split
  · exact proper_invalid _
  rename_i schema hread
  simp only [Except.bind_eq_ok] at hread
  obtain ⟨properties, hproperties, required, -, more, hmore, empty, -, hread⟩ := hread
  split at hread
  · obtain rfl := Except.ok.inj hread
    exact ⟨trivial, fun _ => trivial, List.forall_mem_nil _, List.forall_mem_nil _⟩
  obtain rfl := Except.ok.inj hread
  refine ⟨trivial, fun _ => trivial, List.forall_mem_nil _, fun t ht => ?_⟩
  rcases List.mem_append.1 ht with ht | ht
  · obtain ⟨p, hp, rfl⟩ := List.mem_map.1 ht
    split at hproperties
    · rename_i ps hps
      obtain rfl := Except.ok.inj hproperties
      obtain ⟨v, hv, heq⟩ := mem_ofProperties hp
      exact heq ▸ .value ((h.lookup hps).member hv)
    · cases hproperties
    · obtain rfl := Except.ok.inj hproperties
      cases hp
  · rw [Option.mem_toList] at ht
    split at hmore
    · obtain rfl := Except.ok.inj hmore
      cases ht
    · obtain rfl := Except.ok.inj hmore
      obtain rfl := Option.some.inj ht
      exact .any
    · rename_i inner hinner
      obtain rfl := Except.ok.inj hmore
      obtain rfl := Option.some.inj ht
      exact .members (h.lookup hinner)
    · cases hmore
    · obtain rfl := Except.ok.inj hmore
      split at ht
      · cases ht
      · obtain rfl := Option.some.inj ht
        exact .any

theorem proper_ofType (h : PartOf document (.object ms)) (name : String) :
    Proper document strict (ofType strict ms name) := by
  rw [ofType]
  split_ifs
  · exact proper_ofString h
  · exact proper_ofBounds true
  · exact proper_ofBounds false
  · exact ⟨trivial, fun _ => trivial, List.forall_mem_nil _, List.forall_mem_nil _⟩
  · exact ⟨trivial, fun _ => trivial, List.forall_mem_nil _, List.forall_mem_nil _⟩
  · exact proper_ofArray h
  · exact proper_ofObject h
  · exact proper_invalid _

theorem proper_anyOf {v : Value} {vs : List Value} (key : String) (h : PartOf document (.array (v :: vs))) :
    Proper document strict (.anyOf key (ofValues strict (v :: vs))) := by
  refine ⟨?_, fun _ => trivial, List.forall_mem_nil _, readFrom_ofValues h⟩
  rw [Shaped, ofValues]
  exact List.cons_ne_nil _ _

theorem proper_ofMembers (h : PartOf document (.object ms)) : Proper document strict (ofMembers strict ms) := by
  rw [ofMembers]
  split
  · exact ⟨trivial, fun _ => trivial, List.forall_mem_nil _, List.forall_mem_nil _⟩
  · exact proper_invalid _
  split
  · rename_i hconst
    exact ⟨List.cons_ne_nil _ _, fun _ => trivial, List.forall_mem_singleton.2 (h.lookup hconst), List.forall_mem_nil _⟩
  split
  · exact proper_invalid _
  · rename_i hne henum
    exact ⟨hne, fun _ => trivial, fun _ hv => (h.lookup henum).item hv, List.forall_mem_nil _⟩
  · exact proper_invalid _
  split
  · rename_i hanyOf
    exact proper_anyOf _ (h.lookup hanyOf)
  · exact proper_invalid _
  split
  · rename_i honeOf
    exact proper_anyOf _ (h.lookup honeOf)
  · exact proper_invalid _
  split
  · rename_i hallOf
    exact ⟨trivial, fun _ => trivial, List.forall_mem_nil _,
      List.forall_mem_singleton.2 (.value ((h.lookup hallOf).item (List.mem_singleton_self _)))⟩
  · exact proper_invalid _
  split
  · exact proper_ofType h _
  · exact proper_invalid _
  · rename_i names hne _
    refine ⟨fun hnil => hne (List.map_eq_nil_iff.1 hnil), fun _ => trivial, List.forall_mem_nil _, fun t ht => ?_⟩
    obtain ⟨name, -, rfl⟩ := List.mem_map.1 ht
    split
    · exact .type _ h
    · exact .invalid _
  · exact proper_invalid _
  split_ifs
  · exact proper_ofObject h
  · exact proper_ofArray h
  · exact proper_ofString h
  · exact proper_ofBounds false
  · exact proper_any

theorem proper_ofValue {v : Value} (h : PartOf document v) : Proper document strict (ofValue strict v) := by
  unfold ofValue
  split
  · exact proper_any
  · exact proper_invalid _
  · exact proper_ofMembers h
  · exact proper_invalid _

theorem ReadFrom.proper {s : Schema} (h : ReadFrom document strict s) : Proper document strict s := by
  cases h with
  | value h => exact proper_ofValue h
  | members h => exact proper_ofMembers h
  | type name h => exact proper_ofType h name
  | invalid cause => exact proper_invalid cause
  | any => exact proper_any

end

/-- The schemas that a document asks for are read from its parts. -/
theorem Asked.readFrom {s : Schema} (h : Asked document strict s) : ReadFrom document strict s := by
  induction h with
  | root => exact .value .self
  | child _ hmem ih => exact ih.proper.children _ hmem
  | target _ hresolves _ =>
    obtain ⟨pointer, -, hfound⟩ := hresolves
    exact .value (PartOf.self.pointer? hfound)

theorem Asked.proper {s : Schema} (h : Asked document strict s) : Proper document strict s := h.readFrom.proper

/-! ## Properties of their sources -/

/-- A schema without schemas inside it. -/
def IsLeaf : Schema → Prop
  | .anyOf .. | .types _ | .allOf _ | .array .. | .object .. => False
  | _ => True

/-- A property of sources that goes from the parts of a schema's source to the whole. -/
structure Inherited (document : Value) (strict : Bool) (p : Progress) (l : Layout) (P : Ebnf.Source → Prop) : Prop where
  leaf : ∀ {s depth source}, IsLeaf s → Asked document strict s → source ∈ source? p l depth s → P source
  anyValue : ∀ n ∈ p.anyValue, P (.name n)
  choice : ∀ {sources}, sources ≠ [] → (∀ source ∈ sources, P source) → P (.ofAlternatives sources)
  array : ∀ {depth initial more least most items item}, Asked document strict (.array initial more least most) →
    (∀ source ∈ items, P source) → (∀ source ∈ item, P source) →
      P (arraySource l depth items item (least - initial.length) (most.map (· - initial.length)))
  object : ∀ {depth members extra mayBeEmpty},
    (∀ m ∈ members, ∃ key value, m.sources = [keySource key] ++ l.keyValueSeparator ++ [value] ∧ P value) →
    (∀ e ∈ extra, ∃ key ∈ p.anyString, ∃ value, e = [.name key] ++ l.keyValueSeparator ++ [value] ∧ P value) →
      P (objectSource l depth members extra mayBeEmpty)

namespace Inherited

variable {p : Progress} {l : Layout} {P : Ebnf.Source → Prop}

theorem sources?_ne_nil {depth : Nat} {ss : List Schema} {sources : List Ebnf.Source}
    (h : sources ∈ sources? p l depth ss) (hne : ss ≠ []) : sources ≠ [] := by
  cases ss with
  | nil => contradiction
  | cons s rest =>
    rw [sources?] at h
    obtain ⟨_, -, h⟩ := Option.mem_bind_iff.1 h
    obtain ⟨_, -, rfl⟩ := Option.mem_map.1 h
    exact List.cons_ne_nil _ _

theorem exists_of_mem_mapM {α β : Type} {f : α → Option β} {as : List α} : ∀ {bs : List β}, bs ∈ as.mapM f →
    ∀ {b : β}, b ∈ bs → ∃ a ∈ as, b ∈ f a := by
  induction as with
  | nil =>
    rintro _ ⟨⟩
    nofun
  | cons a as ih =>
    intro bs hbs b hb
    simp only [List.mapM_cons, bind, pure] at hbs
    obtain ⟨first, hfirst, hbs⟩ := Option.mem_bind_iff.1 hbs
    obtain ⟨others, hothers, hbs⟩ := Option.mem_bind_iff.1 hbs
    obtain rfl := Option.some.inj hbs
    rcases List.mem_cons.1 hb with rfl | hb
    · exact ⟨a, List.mem_cons_self, hfirst⟩
    · obtain ⟨a', ha', hb⟩ := ih hothers hb
      exact ⟨a', List.mem_cons_of_mem _ ha', hb⟩

mutual

/-- The sources of all schemas that are asked for have the property. -/
theorem of_source (hP : Inherited document strict p l P) (depth : Nat) : ∀ s : Schema, Asked document strict s →
    ∀ source ∈ source? p l depth s, P source
  | .any, h, _, hs | .invalid _, h, _, hs | .reference _, h, _, hs | .values _, h, _, hs | .boolean, h, _, hs
  | .null, h, _, hs | .pattern _, h, _, hs | .string .., h, _, hs | .integer .., h, _, hs | .number .., h, _, hs
  | .emptyObject, h, _, hs => hP.leaf (by trivial) h hs
  | .anyOf _ alternatives, h, _, hs => by
    rw [source?] at hs
    obtain ⟨sources, hsources, rfl⟩ := Option.mem_map.1 hs
    exact hP.choice (sources?_ne_nil hsources h.proper.shaped)
      (of_sources hP depth alternatives (fun _ hs => h.child hs) _ hsources)
  | .types alternatives, h, _, hs => by
    rw [source?] at hs
    obtain ⟨sources, hsources, rfl⟩ := Option.mem_map.1 hs
    exact hP.choice (sources?_ne_nil hsources h.proper.shaped)
      (of_sources hP depth alternatives (fun _ hs => h.child hs) _ hsources)
  | .allOf single, h, _, hs => by
    rw [source?] at hs
    exact of_source hP depth single (h.child (List.mem_singleton_self _)) _ hs
  | .array initial more least most, h, _, hs => by
    rw [source?] at hs
    obtain ⟨items, hitems, hs⟩ := Option.mem_bind_iff.1 hs
    obtain ⟨item, hitem, rfl⟩ := Option.mem_map.1 hs
    refine hP.array h (of_sources hP _ initial (fun _ hs => h.child (List.mem_append_left _ hs)) _ hitems) ?_
    split at hitem
    · obtain rfl := Option.some.inj hitem
      nofun
    · exact of_optional hP _ more (fun _ hs => h.child (List.mem_append_right _ (Option.mem_toList.2 hs))) _ hitem
  | .object properties required more mayBeEmpty, h, _, hs => by
    rw [source?] at hs
    obtain ⟨declared, hdeclared, hs⟩ := Option.mem_bind_iff.1 hs
    obtain ⟨undeclared, hundeclared, hs⟩ := Option.mem_bind_iff.1 hs
    obtain ⟨extra, hextra, rfl⟩ := Option.mem_map.1 hs
    refine hP.object (List.forall_mem_append.2 ⟨?_, ?_⟩) ?_
    · exact of_members hP _ required properties
        (fun m hm => h.child (List.mem_append_left _ (List.mem_map_of_mem hm))) _ hdeclared
    · intro m hm
      obtain ⟨k, -, hk⟩ := exists_of_mem_mapM hundeclared hm
      obtain ⟨value, hvalue, rfl⟩ := Option.mem_map.1 hk
      exact ⟨k, .name value, rfl, hP.anyValue value hvalue⟩
    · exact of_extra hP _ more (fun _ hs => h.child (List.mem_append_right _ (Option.mem_toList.2 hs))) _ hextra

theorem of_sources (hP : Inherited document strict p l P) (depth : Nat) : ∀ ss : List Schema,
    (∀ s ∈ ss, Asked document strict s) → ∀ sources ∈ sources? p l depth ss, ∀ source ∈ sources, P source
  | [], _, _, hs => by
    obtain rfl := Option.some.inj hs
    nofun
  | s :: rest, h, _, hs => by
    rw [sources?] at hs
    obtain ⟨first, hfirst, hs⟩ := Option.mem_bind_iff.1 hs
    obtain ⟨others, hothers, rfl⟩ := Option.mem_map.1 hs
    obtain ⟨hs, hrest⟩ := List.forall_mem_cons.1 h
    exact List.forall_mem_cons.2 ⟨of_source hP depth s hs _ hfirst, of_sources hP depth rest hrest _ hothers⟩

theorem of_optional (hP : Inherited document strict p l P) (depth : Nat) : ∀ o : Option Schema,
    (∀ s ∈ o, Asked document strict s) → ∀ item ∈ optional? p l depth o, ∀ source ∈ item, P source
  | none, _, _, hs => by
    obtain rfl := Option.some.inj hs
    nofun
  | some s, h, _, hs => by
    rw [optional?] at hs
    obtain ⟨value, hvalue, rfl⟩ := Option.mem_map.1 hs
    rintro _ ⟨⟩
    exact of_source hP depth s (h s rfl) _ hvalue

theorem of_members (hP : Inherited document strict p l P) (depth : Nat) (required : List String) :
    ∀ properties : List (String × Schema), (∀ m ∈ properties, Asked document strict m.2) →
      ∀ members ∈ members? p l depth required properties, ∀ m ∈ members, ∃ key value,
        m.sources = [keySource key] ++ l.keyValueSeparator ++ [value] ∧ P value
  | [], _, _, hs => by
    obtain rfl := Option.some.inj hs
    nofun
  | (k, s) :: rest, h, _, hs => by
    rw [members?] at hs
    obtain ⟨value, hvalue, hs⟩ := Option.mem_bind_iff.1 hs
    obtain ⟨others, hothers, rfl⟩ := Option.mem_map.1 hs
    obtain ⟨hs, hrest⟩ := List.forall_mem_cons.1 h
    exact List.forall_mem_cons.2 ⟨⟨k, value, rfl, of_source hP depth s hs _ hvalue⟩,
      of_members hP depth required rest hrest _ hothers⟩

theorem of_extra (hP : Inherited document strict p l P) (depth : Nat) : ∀ o : Option Schema,
    (∀ s ∈ o, Asked document strict s) → ∀ extra ∈ extra? p l depth o, ∀ e ∈ extra, ∃ key ∈ p.anyString,
      ∃ value, e = [.name key] ++ l.keyValueSeparator ++ [value] ∧ P value
  | none, _, _, hs => by
    obtain rfl := Option.some.inj hs
    nofun
  | some s, h, _, hs => by
    rw [extra?] at hs
    obtain ⟨key, hkey, hs⟩ := Option.mem_bind_iff.1 hs
    obtain ⟨value, hvalue, rfl⟩ := Option.mem_map.1 hs
    rintro _ ⟨⟩
    exact ⟨key, hkey, value, rfl, of_source hP depth s (h s rfl) _ hvalue⟩

end

end Inherited

end ConstrainedDecoding.Schema
