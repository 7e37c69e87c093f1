import ConstrainedDecoding.Proofs.SchemaShapes

/-!
# Visits of schemas

A conversion visits the schema of its document, the schemas inside one that it visits, and the target of each
reference when it first comes across it. So visits go on along references that lead back to where they stand, but no
target is expanded twice, and visits end: each step leaves fewer targets to expand, or less to visit.
-/
namespace ConstrainedDecoding.Schema

open Json (Value)

/-! ## Targets -/

/-- The target that a member gives, if it is a reference. -/
def ownTarget (key : String) : Value → List String
  | .string target => if key = "$ref" then [target] else []
  | _ => []

mutual

/-- The targets of the references in a value. -/
def targets : Value → List String
  | .array items => targetsInItems items
  | .object members => targetsInMembers members
  | _ => []

def targetsInItems : List Value → List String
  | [] => []
  | v :: rest => targets v ++ targetsInItems rest

def targetsInMembers : List (String × Value) → List String
  | [] => []
  | (k, v) :: rest => ownTarget k v ++ targets v ++ targetsInMembers rest

end

mutual

theorem length_targets_le : ∀ v : Value, (targets v).length ≤ countReferences v
  | .array items => by
    rw [targets, countReferences]
    exact length_targetsInItems_le items
  | .object members => by
    rw [targets, countReferences]
    exact length_targetsInMembers_le members
  | .null | .bool _ | .number _ | .string _ => by simp [targets]

theorem length_targetsInItems_le : ∀ items : List Value, (targetsInItems items).length ≤ countInItems items
  | [] => le_rfl
  | v :: rest => by
    rw [targetsInItems, countInItems, List.length_append]
    exact Nat.add_le_add (length_targets_le v) (length_targetsInItems_le rest)

theorem length_targetsInMembers_le : ∀ members : List (String × Value),
    (targetsInMembers members).length ≤ countInMembers members
  | [] => le_rfl
  | (k, v) :: rest => by
    have own : (ownTarget k v).length ≤ if k = "$ref" then 1 else 0 := by
      unfold ownTarget
      split
      · split <;> simp
      · exact Nat.zero_le _
    rw [targetsInMembers, countInMembers, List.length_append, List.length_append]
    exact Nat.add_le_add (Nat.add_le_add own (length_targets_le v)) (length_targetsInMembers_le rest)

end

theorem targets_subset_of_mem_items {v : Value} {items : List Value} (h : v ∈ items) : targets v ⊆ targetsInItems items := by
  induction items with
  | nil => cases h
  | cons w rest ih =>
    rw [targetsInItems]
    rcases List.mem_cons.1 h with rfl | h
    · exact List.subset_append_left _ _
    · exact List.Subset.trans (ih h) (List.subset_append_right _ _)

theorem targets_subset_of_mem_members {key : String} {v : Value} {members : List (String × Value)}
    (h : (key, v) ∈ members) : targets v ⊆ targetsInMembers members := by
  induction members with
  | nil => cases h
  | cons m rest ih =>
    obtain ⟨k, w⟩ := m
    rw [targetsInMembers]
    rcases List.mem_cons.1 h with heq | h
    · obtain ⟨rfl, rfl⟩ := Prod.mk.inj heq
      exact List.Subset.trans (List.subset_append_right _ _) (List.subset_append_left _ _)
    · exact List.Subset.trans (ih h) (List.subset_append_right _ _)

theorem mem_targetsInMembers {target : String} {members : List (String × Value)}
    (h : ("$ref", Value.string target) ∈ members) : target ∈ targetsInMembers members := by
  induction members with
  | nil => cases h
  | cons m rest ih =>
    obtain ⟨k, w⟩ := m
    rw [targetsInMembers]
    rcases List.mem_cons.1 h with heq | h
    · obtain ⟨rfl, rfl⟩ := Prod.mk.inj heq
      simp [ownTarget]
    · exact List.mem_append_right _ (ih h)

section

variable {document : Value} {strict : Bool}

theorem PartOf.targets_subset {v : Value} (h : PartOf document v) : targets v ⊆ targets document := by
  induction h with
  | self => exact List.Subset.refl _
  | item _ hv ih =>
    rw [targets] at ih
    exact List.Subset.trans (targets_subset_of_mem_items hv) ih
  | member _ hv ih =>
    rw [targets] at ih
    exact List.Subset.trans (targets_subset_of_mem_members hv) ih

/-- Whether a schema is a reference. -/
def isReference : Schema → Bool
  | .reference _ => true
  | _ => false

variable {target : String} {members : List (String × Value)}

theorem ne_reference {s : Schema} (h : s.isReference = false) : s ≠ .reference target := by
  rintro rfl
  cases h

theorem isReference_ofString : (ofString members).isReference = false := by
  unfold ofString
  dsimp only
  split <;> [rfl; rfl; rfl; split] <;> rfl

theorem isReference_ofBounds {whole : Bool} : (ofBounds members whole).isReference = false := by
  unfold ofBounds
  split
  · rfl
  · split_ifs
    · split
      · split <;> rfl
      · rfl
    · rfl

theorem isReference_ofArray : (ofArray strict members).isReference = false := by
  rw [ofArray]
  split
  · rfl
  · split <;> rfl

theorem isReference_ofObject : (ofObject strict members).isReference = false := by
  rw [ofObject]
  split
  · rfl
  · rename_i schema hread
    obtain ⟨properties, -, hread⟩ := Except.bind_eq_ok.1 hread
    obtain ⟨required, -, hread⟩ := Except.bind_eq_ok.1 hread
    obtain ⟨more, -, hread⟩ := Except.bind_eq_ok.1 hread
    obtain ⟨empty, -, hread⟩ := Except.bind_eq_ok.1 hread
    split at hread <;> cases hread <;> rfl

theorem isReference_ofType {name : String} : (ofType strict members name).isReference = false := by
  rw [ofType]
  split_ifs
  · exact isReference_ofString
  · exact isReference_ofBounds
  · exact isReference_ofBounds
  · rfl
  · rfl
  · exact isReference_ofArray
  · exact isReference_ofObject
  · rfl

/-- Only a member of its own makes a schema a reference. -/
theorem lookup_of_ofMembers (h : ofMembers strict members = .reference target) :
    Value.lookup "$ref" members = some (.string target) := by
  rw [ofMembers] at h
  split at h
  · rename_i found hfound
    cases h
    exact hfound
  · cases h
  repeat' split at h
  all_goals first
    | cases h
    | exact absurd h (ne_reference isReference_ofType)
    | exact absurd h (ne_reference isReference_ofObject)
    | exact absurd h (ne_reference isReference_ofArray)
    | exact absurd h (ne_reference isReference_ofString)
    | exact absurd h (ne_reference isReference_ofBounds)

/-- A reference that a document asks for has one of its targets. -/
theorem Asked.mem_targets (h : Asked document strict (.reference target)) : target ∈ targets document := by
  have own {members : List (String × Value)} (hpart : PartOf document (.object members))
      (href : Value.lookup "$ref" members = some (.string target)) : target ∈ targets document := by
    refine hpart.targets_subset ?_
    rw [targets]
    exact mem_targetsInMembers (mem_of_lookup href)
  generalize hs : Schema.reference target = s at h
  cases h.readFrom with
  | value hpart =>
    rename_i v
    unfold ofValue at hs
    split at hs
    · cases hs
    · cases hs
    · exact own hpart (lookup_of_ofMembers hs.symm)
    · cases hs
  | members hpart => exact own hpart (lookup_of_ofMembers hs.symm)
  | type name hpart => exact absurd hs.symm (ne_reference isReference_ofType)
  | invalid => cases hs
  | any => cases hs

end

/-! ## Visits -/

/-- The schemas that are visited right inside a schema, in their order. Further items of an array are left out where
there can be none. -/
def visited : Schema → List Schema
  | .anyOf _ alternatives | .types alternatives => alternatives
  | .allOf single => [single]
  | .array initial more _ most =>
    initial ++ if most.map (· - initial.length) = some 0 then [] else more.toList
  | .object properties _ more _ => properties.map Prod.snd ++ more.toList
  | _ => []

/-- How far the visits of a document have got: the targets that have been expanded, last first, and the schemas that
are still to be visited. -/
structure Visits where
  expanded : List String
  pending : List Schema

namespace Visits

/-- The visits of a document start with its schema. -/
def start (document : Value) (strict : Bool) : Visits := ⟨[], [ofValue strict document]⟩

/-- One schema is visited. -/
inductive Step (document : Value) (strict : Bool) : Visits → Visits → Prop
  /-- A target that has been expanded is not visited again. -/
  | known {expanded target rest} : target ∈ expanded →
      Step document strict ⟨expanded, .reference target :: rest⟩ ⟨expanded, rest⟩
  | expand {expanded target found rest} : target ∉ expanded → Resolves document target found →
      Step document strict ⟨expanded, .reference target :: rest⟩ ⟨target :: expanded, ofValue strict found :: rest⟩
  | inside {expanded s rest} : s.isReference = false →
      Step document strict ⟨expanded, s :: rest⟩ ⟨expanded, s.visited ++ rest⟩

/-- Some schemas are visited, one after the other. -/
abbrev Steps (document : Value) (strict : Bool) : Visits → Visits → Prop := Relation.ReflTransGen (Step document strict)

/-- What holds of the visits of a document: no target is expanded twice, and all are those of its references. -/
structure Valid (document : Value) (strict : Bool) (v : Visits) : Prop where
  nodup : v.expanded.Nodup
  expanded : v.expanded ⊆ targets document
  asked : ∀ s ∈ v.pending, Asked document strict s

variable {document : Value} {strict : Bool} {v w : Visits}

theorem visited_subset_children (s : Schema) : s.visited ⊆ s.children := by
  cases s with
  | array initial more least most =>
    simp only [visited, children]
    split
    · simp
    · exact List.Subset.refl _
  | _ => exact List.Subset.refl _

theorem valid_start (document : Value) (strict : Bool) : Valid document strict (start document strict) :=
  ⟨List.nodup_nil, List.nil_subset _, List.forall_mem_singleton.2 .root⟩

theorem Step.valid (h : Step document strict v w) (hv : Valid document strict v) : Valid document strict w := by
  cases h with
  | known => exact ⟨hv.nodup, hv.expanded, (List.forall_mem_cons.1 hv.asked).2⟩
  | expand hnew hfound =>
    obtain ⟨href, hrest⟩ := List.forall_mem_cons.1 hv.asked
    exact ⟨List.nodup_cons.2 ⟨hnew, hv.nodup⟩, List.cons_subset.2 ⟨href.mem_targets, hv.expanded⟩,
      List.forall_mem_cons.2 ⟨href.target hfound, hrest⟩⟩
  | inside =>
    obtain ⟨hs, hrest⟩ := List.forall_mem_cons.1 hv.asked
    exact ⟨hv.nodup, hv.expanded,
      List.forall_mem_append.2 ⟨fun t ht => hs.child (visited_subset_children _ ht), hrest⟩⟩

theorem Steps.valid (h : Steps document strict v w) (hv : Valid document strict v) : Valid document strict w := by
  induction h with
  | refl => exact hv
  | tail _ hstep ih => exact hstep.valid ih

/-- No more targets are expanded than there are references in the document. -/
theorem Valid.length_le (h : Valid document strict v) : v.expanded.length ≤ countReferences document :=
  (List.subperm_of_subset h.nodup h.expanded).length_le.trans (length_targets_le document)

/-! ## Visits end -/

theorem sizeOf_append (ss rest : List Schema) : sizeOf (ss ++ rest) + 1 = sizeOf ss + sizeOf rest := by
  induction ss with
  | nil => simp [Nat.add_comm]
  | cons s ss ih =>
    simp only [List.cons_append, List.cons.sizeOf_spec]
    omega

theorem sizeOf_toList_le (more : Option Schema) : sizeOf more.toList ≤ sizeOf more + 1 := by
  cases more with
  | none => simp
  | some s =>
    simp only [Option.toList_some, List.cons.sizeOf_spec, List.nil.sizeOf_spec, Option.some.sizeOf_spec]
    omega

theorem sizeOf_map_snd_le (properties : List (String × Schema)) :
    sizeOf (properties.map Prod.snd) ≤ sizeOf properties := by
  induction properties with
  | nil => exact le_rfl
  | cons m properties ih =>
    obtain ⟨k, s⟩ := m
    simp only [List.map_cons, List.cons.sizeOf_spec, Prod.mk.sizeOf_spec]
    omega

/-- What is visited inside a schema is less than the schema. -/
theorem sizeOf_visited_le (s : Schema) : sizeOf s.visited ≤ sizeOf s + 1 := by
  cases s with
  | array initial more least most =>
    have htail : sizeOf (if most.map (· - initial.length) = some 0 then [] else more.toList) ≤ sizeOf more + 1 := by
      split
      · simp
      · exact sizeOf_toList_le more
    have := sizeOf_append initial (if most.map (· - initial.length) = some 0 then [] else more.toList)
    simp only [visited, Schema.array.sizeOf_spec]
    omega
  | object properties required more mayBeEmpty =>
    have := sizeOf_append (properties.map Prod.snd) more.toList
    have := sizeOf_map_snd_le properties
    have := sizeOf_toList_le more
    simp only [visited, Schema.object.sizeOf_spec]
    omega
  | _ =>
    simp [visited]
    try omega

/-- What is left to do: the references of a document whose targets may still be expanded, and the size of what is to
be visited. -/
noncomputable def left (document : Value) (v : Visits) : Nat × Nat :=
  (countReferences document - v.expanded.length, sizeOf v.pending)

theorem Step.left_lt (h : Step document strict v w) (hv : Valid document strict v) :
    Prod.Lex (· < ·) (· < ·) (left document w) (left document v) := by
  have hw := (h.valid hv).length_le
  cases h with
  | known =>
    refine .right _ ?_
    simp only [List.cons.sizeOf_spec]
    omega
  | @expand expanded target found rest =>
    refine .left _ _ ?_
    change countReferences document - (expanded.length + 1) < countReferences document - expanded.length
    rw [List.length_cons] at hw
    omega
  | @inside expanded s rest hs =>
    have := sizeOf_append s.visited rest
    have := sizeOf_visited_le s
    refine .right _ ?_
    simp only [List.cons.sizeOf_spec]
    omega

/-- Whatever the references of a document lead to, its visits end. -/
theorem acc_of_valid (hv : Valid document strict v) : Acc (fun w v => Step document strict v w) v := by
  have wf : WellFounded (InvImage (Prod.Lex (· < ·) (· < ·)) (left document)) :=
    InvImage.wf _ (WellFounded.prod_lex Nat.lt_wfRel.wf Nat.lt_wfRel.wf)
  induction v using wf.induction with
  | _ v ih => exact .intro v fun w h => ih w (h.left_lt hv) (h.valid hv)

end Visits

end ConstrainedDecoding.Schema
