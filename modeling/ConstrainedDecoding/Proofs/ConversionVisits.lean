import ConstrainedDecoding.Proofs.SchemaTexts
import ConstrainedDecoding.Proofs.SchemaVisits

/-!
# Conversions end

Where lines are not broken, a conversion follows the visits of its document up to the end of them, or up to the
schema that it fails at. So references are never open without end, the bound on how many may be open changes nothing,
and each target gets one rule.
-/
namespace ConstrainedDecoding.Schema

open Ebnf (Source Production)
open Json (Value)
open Conversion

/-! ## Failures -/

namespace Conversion

/-- A conversion fails. -/
def Failed {α : Type} (f : Conversion α) (p : Progress) (fault : Fault) : Prop := f.run p = .error fault

section

variable {α β : Type} {p p' : Progress} {fault fault' : Fault}

@[simp] theorem failed_pure {x : α} : ¬ Failed (pure x : Conversion α) p fault := by
  rw [Failed, StateT.run_pure]
  exact fun h => by cases h

@[simp] theorem failed_bind {f : Conversion α} {g : α → Conversion β} :
    Failed (f >>= g) p fault ↔ Failed f p fault ∨ ∃ x q, Ran f p x q ∧ Failed (g x) q fault := by
  simp only [Failed, Ran, StateT.run_bind]
  cases f.run p with
  | error fault' => simp [bind, Except.bind]
  | ok result =>
    obtain ⟨x, q⟩ := result
    simp [bind, Except.bind]

@[simp] theorem failed_map {f : Conversion α} {g : α → β} : Failed (g <$> f) p fault ↔ Failed f p fault := by
  rw [Failed, StateT.run_map, Failed]
  cases f.run p <;> simp [Functor.map, Except.map]

@[simp] theorem failed_get : ¬ Failed get p fault := by
  simp [Failed, pure, Except.pure]

@[simp] theorem failed_set {q : Progress} : ¬ Failed (set q) p fault := by
  simp [Failed, pure, Except.pure]

@[simp] theorem failed_modify {f : Progress → Progress} : ¬ Failed (modify f) p fault := by
  simp [Failed, pure, Except.pure]

@[simp] theorem failed_throw : Failed (throw fault' : Conversion α) p fault ↔ fault' = fault := by
  simp [Failed, throw, throwThe, MonadExceptOf.throw, StateT.run, StateT.lift, bind, Except.bind]

end

end Conversion

/-! ## What progress tells of visits -/

/-- The targets that have been expanded, last first. -/
def Progress.expanded (p : Progress) : List String := p.references.map (·.1.1)

/-- All references are filed for one level. -/
def Progress.Flat (p : Progress) : Prop := ∀ r ∈ p.references, r.1.2 = 0

/-- The number of rules that are not those of references. -/
def Progress.shared (p : Progress) : Nat :=
  p.stringChar.toList.length + p.anyString.toList.length + 2 * p.anyValue.toList.length

/-- Each production that is added is for a reference that is filed, or is shared. -/
def Progress.Accounts (p p' : Progress) : Prop :=
  p'.productions.length + p.references.length + p.shared = p.productions.length + p'.references.length + p'.shared

theorem Progress.Accounts.trans {p q r : Progress} (h : p.Accounts q) (h' : q.Accounts r) : p.Accounts r := by
  unfold Accounts at *
  omega

theorem Progress.Flat.lookup_eq_none {p : Progress} {target : String} (h : p.Flat) :
    p.references.lookup (target, 0) = none ↔ target ∉ p.expanded := by
  rw [List.lookup_eq_none_iff]
  constructor
  · intro hne hmem
    obtain ⟨r, hr, rfl⟩ := List.mem_map.1 hmem
    have := hne r hr
    simp [← h r hr] at this
  · intro hmem r hr
    rw [bne_iff_ne, ne_eq]
    intro heq
    exact hmem (List.mem_map.2 ⟨r, hr, by rw [← heq]⟩)

/-- What is wrong with a schema by itself. -/
inductive Faulty (document : Value) : Schema → Fault → Prop
  | invalid {cause} (path : String) : Faulty document (.invalid cause) (.at_ path cause)
  | pattern {text fault} : Regex.Pattern.parse text = .error fault → Faulty document (.pattern text) (.pattern text fault)
  | number {lo hi} (path : String) : Regex.decimalsBetween lo hi = [] →
      Faulty document (.number lo hi) (.at_ path .noNumber)
  | notLocal {target} : (∀ pointer, target.toList ≠ '#' :: pointer) →
      Faulty document (.reference target) (.referenceNotLocal target)
  | unresolved {target pointer} : target.toList = '#' :: pointer → document.pointer? (String.ofList pointer) = none →
      Faulty document (.reference target) (.referenceUnresolved target)

/-- Visits have come to a schema that is faulty. -/
def Visits.Fails (document : Value) (v : Visits) (fault : Fault) : Prop :=
  ∃ s rest, v.pending = s :: rest ∧ Faulty document s fault

open Visits

/-- A conversion, where no more than `n` references may be open, visits some schemas. If too many are open when it
fails, at least `n` more targets have been expanded. -/
structure Follows {α : Type} (document : Value) (strict : Bool) (n : Nat) (f : Conversion α) (ss : List Schema) : Prop where
  returns : ∀ {p x p'}, p.Flat → Ran f p x p' → p'.Flat ∧ p.Accounts p' ∧
    ∀ rest, Steps document strict ⟨p.expanded, ss ++ rest⟩ ⟨p'.expanded, rest⟩
  fails : ∀ {p fault}, p.Flat → Failed f p fault → ∀ rest, ∃ v, Steps document strict ⟨p.expanded, ss ++ rest⟩ v ∧
    (v.Fails document fault ∨ fault = .referencesEndless ∧ p.expanded.length + n ≤ v.expanded.length)

theorem Visits.Steps.length_le {document : Value} {strict : Bool} {v w : Visits} (h : Steps document strict v w) :
    v.expanded.length ≤ w.expanded.length := by
  induction h with
  | refl => exact le_rfl
  | tail _ hstep ih =>
    refine ih.trans ?_
    cases hstep with
    | expand => exact Nat.le_succ _
    | _ => exact le_rfl

namespace Follows

variable {α β : Type} {document : Value} {strict : Bool} {n : Nat} {f : Conversion α} {ss ts : List Schema}

theorem pure (x : α) : Follows document strict n (pure x) [] where
  returns h hrun := by
    obtain ⟨rfl, rfl⟩ := ran_pure.1 hrun
    exact ⟨h, rfl, fun _ => .refl⟩
  fails _ hfailed := absurd hfailed failed_pure

theorem congr {f' : Conversion α} (h : Follows document strict n f ss) (hf : f = f') (hs : ss = ts) :
    Follows document strict n f' ts := hf ▸ hs ▸ h

theorem bind (h : Follows document strict n f ss) {g : α → Conversion β} (hg : ∀ x, Follows document strict n (g x) ts) :
    Follows document strict n (f >>= g) (ss ++ ts) where
  returns hp hrun := by
    obtain ⟨x, q, hf, hrun⟩ := ran_bind.1 hrun
    obtain ⟨hq, hcounts, hsteps⟩ := h.returns hp hf
    obtain ⟨hp', hcounts', hsteps'⟩ := (hg x).returns hq hrun
    refine ⟨hp', hcounts.trans hcounts', fun rest => ?_⟩
    rw [List.append_assoc]
    exact (hsteps _).trans (hsteps' rest)
  fails {p fault} hp hfailed rest := by
    rw [List.append_assoc]
    rcases failed_bind.1 hfailed with hf | ⟨x, q, hf, hfailed⟩
    · exact h.fails hp hf _
    · obtain ⟨hq, -, hsteps⟩ := h.returns hp hf
      obtain ⟨v, hv, hfault⟩ := (hg x).fails hq hfailed rest
      refine ⟨v, (hsteps _).trans hv, hfault.imp_right fun ⟨hendless, hlength⟩ => ⟨hendless, ?_⟩⟩
      have := (hsteps rest).length_le
      dsimp only at this
      omega

theorem map (h : Follows document strict n f ss) (g : α → β) : Follows document strict n (do return g (← f)) ss :=
  (h.bind fun _ => .pure _).congr rfl (List.append_nil ss)

/-- A schema that is faulty is where a conversion fails. -/
theorem throw {s : Schema} {fault : Fault} (h : Faulty document s fault) :
    Follows document strict n (throw fault : Conversion α) [s] where
  returns _ hrun := absurd hrun ran_throw
  fails _ hfailed rest := by
    obtain rfl := failed_throw.1 hfailed
    exact ⟨_, .refl, Or.inl ⟨s, rest, rfl, h⟩⟩

/-- Visiting a schema is visiting what is inside it. -/
theorem inside {s : Schema} (hs : s.isReference = false) (h : Follows document strict n f s.visited) :
    Follows document strict n f [s] where
  returns hp hrun := by
    obtain ⟨hp', hcounts, hsteps⟩ := h.returns hp hrun
    exact ⟨hp', hcounts, fun rest => (hsteps rest).head (.inside hs)⟩
  fails hp hfailed rest := by
    obtain ⟨v, hv, hfault⟩ := h.fails hp hfailed rest
    exact ⟨v, hv.head (.inside hs), hfault⟩

/-- A conversion that makes shared rules only visits nothing. -/
theorem quiet (hreturns : ∀ {p x p'}, Ran f p x p' → p'.references = p.references ∧ p.Accounts p')
    (hfails : ∀ {p fault}, ¬ Failed f p fault) : Follows document strict n f [] where
  returns {p x p'} hp hrun := by
    obtain ⟨hreferences, hcounts⟩ := hreturns hrun
    refine ⟨fun r hr => hp r (hreferences ▸ hr), hcounts, fun rest => ?_⟩
    rw [Progress.expanded, Progress.expanded, hreferences]
    exact .refl
  fails _ hfailed := absurd hfailed hfails

theorem mapM {g : β → Conversion α} (h : ∀ x, Follows document strict n (g x) []) (xs : List β) :
    Follows document strict n (xs.mapM g) [] := by
  induction xs with
  | nil => exact pure []
  | cons x xs ih =>
    rw [List.mapM_cons]
    exact (h x).bind fun _ => ih.map _

end Follows

/-! ## Rules that are shared -/

section

variable {p p' : Progress} {name : String} {fault : Fault}

theorem accounts_newName {base : String} (h : Ran (newName base) p name p') : p' = { p with names := p'.names } := by
  simp only [newName, ran_bind, ran_get, ran_set, ran_pure] at h
  obtain ⟨_, _, ⟨rfl, rfl⟩, _, _, rfl, -, rfl⟩ := h
  rfl

@[simp] theorem not_failed_newName {base : String} : ¬ Failed (newName base) p fault := by
  simp [newName]

theorem accounts_stringChar (h : Ran stringChar p name p') : p'.references = p.references ∧ p.Accounts p' := by
  unfold stringChar at h
  obtain ⟨_, _, hget, h⟩ := ran_bind.1 h
  obtain ⟨rfl, rfl⟩ := ran_get.1 hget
  split at h
  · obtain ⟨-, rfl⟩ := ran_pure.1 h
    exact ⟨rfl, rfl⟩
  · rename_i hchar
    simp only [produce, ran_bind, ran_modify, ran_pure] at h
    obtain ⟨_, q, hname, _, _, rfl, _, _, rfl, -, rfl⟩ := h
    rw [accounts_newName hname]
    refine ⟨rfl, ?_⟩
    simp only [Progress.Accounts, Progress.shared, hchar, List.length_cons, Option.toList_none, Option.toList_some, List.length_nil]
    omega

@[simp] theorem not_failed_stringChar : ¬ Failed stringChar p fault := by
  unfold stringChar
  simp only [failed_bind, failed_get, false_or, ran_get]
  rintro ⟨_, _, ⟨rfl, rfl⟩, h⟩
  split at h
  · exact failed_pure h
  · simp [produce] at h

theorem accounts_anyString (h : Ran anyString p name p') : p'.references = p.references ∧ p.Accounts p' := by
  unfold anyString at h
  obtain ⟨_, _, hget, h⟩ := ran_bind.1 h
  obtain ⟨rfl, rfl⟩ := ran_get.1 hget
  split at h
  · obtain ⟨-, rfl⟩ := ran_pure.1 h
    exact ⟨rfl, rfl⟩
  · rename_i hstring
    simp only [produce, ran_bind, ran_modify, ran_pure] at h
    obtain ⟨_, q, hname, _, _, rfl, _, r, hchar, _, _, rfl, -, rfl⟩ := h
    rw [accounts_newName hname] at hchar
    obtain ⟨hreferences, hcounts⟩ := accounts_stringChar hchar
    refine ⟨hreferences, ?_⟩
    simp only [Progress.Accounts, Progress.shared, hstring, List.length_cons, Option.toList_none, Option.toList_some, List.length_nil] at hcounts ⊢
    omega

@[simp] theorem not_failed_anyString : ¬ Failed anyString p fault := by
  unfold anyString
  simp only [failed_bind, failed_get, false_or, ran_get]
  rintro ⟨_, _, ⟨rfl, rfl⟩, h⟩
  split at h
  · exact failed_pure h
  · simp [produce] at h

theorem accounts_anyValue {l : Layout} (h : Ran (anyValue l) p name p') : p'.references = p.references ∧ p.Accounts p' := by
  unfold anyValue at h
  obtain ⟨_, _, hget, h⟩ := ran_bind.1 h
  obtain ⟨rfl, rfl⟩ := ran_get.1 hget
  split at h
  · obtain ⟨-, rfl⟩ := ran_pure.1 h
    exact ⟨rfl, rfl⟩
  · rename_i hvalue
    simp only [produce, ran_bind, ran_modify, ran_pure] at h
    obtain ⟨_, q, hname, _, _, rfl, _, r, hstring, _, t, hnumber, _, _, rfl, _, _, rfl, -, rfl⟩ := h
    rw [accounts_newName hname] at hstring
    rw [accounts_newName hnumber]
    obtain ⟨hreferences, hcounts⟩ := accounts_anyString hstring
    refine ⟨hreferences, ?_⟩
    simp only [Progress.Accounts, Progress.shared, hvalue, List.length_cons, Option.toList_none, Option.toList_some, List.length_nil] at hcounts ⊢
    omega

@[simp] theorem not_failed_anyValue {l : Layout} : ¬ Failed (anyValue l) p fault := by
  unfold anyValue
  simp only [failed_bind, failed_get, false_or, ran_get]
  rintro ⟨_, _, ⟨rfl, rfl⟩, h⟩
  split at h
  · exact failed_pure h
  · simp [produce] at h

end

/-! ## Conversions follow visits -/

section

variable {document : Value} {strict : Bool} {n : Nat}

theorem follows_anyString : Follows document strict n anyString [] := .quiet accounts_anyString not_failed_anyString

theorem follows_anyValue (l : Layout) : Follows document strict n (anyValue l) [] :=
  .quiet accounts_anyValue not_failed_anyValue

theorem follows_stringSource (least : Nat) (most : Option Nat) : Follows document strict n (stringSource least most) [] := by
  unfold stringSource
  split
  · exact follows_anyString.map _
  · refine (Follows.quiet accounts_stringChar not_failed_stringChar).bind fun char => ?_
    split <;> exact .pure _

theorem follows_patternSource (text : String) :
    Follows document strict n (patternSource text : Conversion Source) [.pattern text] := by
  cases hparse : Regex.Pattern.parse text with
  | error fault =>
    refine (Follows.throw (.pattern hparse)).congr ?_ rfl
    rw [patternSource, hparse]
    rfl
  | ok p =>
    have source : Follows document strict n
        (Pure.pure (.sequence [.literal "\"", .group [p.toSource], .literal "\""]) : Conversion Source) [.pattern text] :=
      .inside rfl (.pure _)
    refine source.congr ?_ rfl
    rw [patternSource, hparse]
    rfl

mutual

/-- The conversion of a schema visits it, if that of a reference does. -/
theorem toSource_follows {l : Layout} {follow : String → Nat → Conversion Source}
    (hfollow : ∀ target depth, Follows document strict n (follow target depth) [.reference target]) (depth : Nat)
    (path : String) : ∀ s : Schema, Follows document strict n (s.toSource l follow depth path) [s]
  | .any => by
    rw [toSource]
    exact .inside rfl ((follows_anyValue l).map _)
  | .invalid cause => by
    rw [toSource]
    exact .throw (.invalid path)
  | .reference target => by
    rw [toSource]
    exact hfollow target depth
  | .values _ | .boolean | .null | .emptyObject => by
    rw [toSource]
    exact .inside rfl (.pure _)
  | .integer lo hi => by
    cases lo <;> cases hi <;> simp only [toSource] <;> exact .inside rfl (.pure _)
  | .number lo hi => by
    by_cases hnone : lo = none ∧ hi = none
    · obtain ⟨rfl, rfl⟩ := hnone
      rw [toSource]
      exact .inside rfl (.pure _)
    · rw [toSource]
      · split
        · rename_i hparts
          exact .throw (.number path hparts)
        · exact .inside rfl (.pure _)
      · exact fun hlo hhi => hnone ⟨hlo, hhi⟩
  | .anyOf key alternatives => by
    rw [toSource]
    exact .inside rfl ((toAlternatives_follows hfollow depth _ 0 alternatives).map _)
  | .allOf single => by
    rw [toSource]
    exact .inside rfl (toSource_follows hfollow depth _ single)
  | .types alternatives => by
    rw [toSource]
    exact .inside rfl ((toTypes_follows hfollow depth path alternatives).map _)
  | .pattern text => by
    rw [toSource]
    exact follows_patternSource text
  | .string least most => by
    rw [toSource]
    exact .inside rfl (follows_stringSource least most)
  | .array initial more least most => by
    rw [toSource]
    refine .inside rfl ?_
    refine (toAlternatives_follows hfollow (depth + 1) _ 0 initial).bind fun items => ?_
    dsimp only
    split
    · exact .pure _
    · exact (toOptional_follows hfollow (depth + 1) _ more).map _
  | .object properties required more mayBeEmpty => by
    rw [toSource]
    refine .inside rfl ?_
    refine (toMembers_follows hfollow (depth + 1) _ required properties).bind fun declared => ?_
    refine (Follows.mapM (fun k => (follows_anyValue l).map _) _).bind fun undeclared => ?_
    cases more with
    | none => exact .pure _
    | some schema =>
      exact follows_anyString.bind fun key => (toSource_follows hfollow (depth + 1) _ schema).map _

theorem toAlternatives_follows {l : Layout} {follow : String → Nat → Conversion Source}
    (hfollow : ∀ target depth, Follows document strict n (follow target depth) [.reference target]) (depth : Nat)
    (path : String) (i : Nat) : ∀ ss : List Schema, Follows document strict n (toAlternatives l follow depth path i ss) ss
  | [] => by
    rw [toAlternatives]
    exact .pure _
  | s :: rest => by
    rw [toAlternatives]
    exact (toSource_follows hfollow depth _ s).bind fun _ => (toAlternatives_follows hfollow depth path (i + 1) rest).map _

theorem toTypes_follows {l : Layout} {follow : String → Nat → Conversion Source}
    (hfollow : ∀ target depth, Follows document strict n (follow target depth) [.reference target]) (depth : Nat)
    (path : String) : ∀ ss : List Schema, Follows document strict n (toTypes l follow depth path ss) ss
  | [] => by
    rw [toTypes]
    exact .pure _
  | s :: rest => by
    rw [toTypes]
    exact (toSource_follows hfollow depth path s).bind fun _ => (toTypes_follows hfollow depth path rest).map _

theorem toOptional_follows {l : Layout} {follow : String → Nat → Conversion Source}
    (hfollow : ∀ target depth, Follows document strict n (follow target depth) [.reference target]) (depth : Nat)
    (path : String) : ∀ s : Option Schema, Follows document strict n (toOptional l follow depth path s) s.toList
  | none => by
    rw [toOptional]
    exact .pure _
  | some s => by
    rw [toOptional]
    exact (toSource_follows hfollow depth path s).map _

theorem toMembers_follows {l : Layout} {follow : String → Nat → Conversion Source}
    (hfollow : ∀ target depth, Follows document strict n (follow target depth) [.reference target]) (depth : Nat)
    (path : String) (required : List String) : ∀ properties : List (String × Schema),
      Follows document strict n (toMembers l follow depth path required properties) (properties.map Prod.snd)
  | [] => by
    rw [toMembers]
    exact .pure _
  | (k, s) :: rest => by
    rw [toMembers]
    exact (toSource_follows hfollow depth _ s).bind fun _ => (toMembers_follows hfollow depth path required rest).map _

end

/-- A reference that is filed counts as expanded. -/
theorem Progress.Flat.file {p : Progress} (h : p.Flat) (names : NameTable) (target name : String) :
    let q : Progress := { p with names := names, references := ((target, 0), name) :: p.references }
    q.Flat ∧ q.expanded = target :: p.expanded :=
  ⟨List.forall_mem_cons.2 ⟨rfl, h⟩, rfl⟩

/-- Following a reference fails where it leads nowhere, or where the conversion of the part that it leads to fails. -/
theorem failed_follow {l : Layout} {fuel : Nat} {target : String} {depth : Nat} {p : Progress} {fault : Fault}
    (hfailed : Failed (follow document strict l (fuel + 1) target depth) p fault) :
    let key := (target, if (l.newline? 0).isSome then depth else 0)
    Faulty document (.reference target) fault ∨
      p.references.lookup key = none ∧ ∃ found base name q, Resolves document target found ∧ Ran (newName base) p name q ∧
        Failed ((ofValue strict found).toSource l (follow document strict l fuel) depth target)
          { q with references := (key, name) :: q.references } fault := by
  intro key
  rw [follow] at hfailed
  obtain ⟨_, _, hget, hfailed⟩ := (failed_bind.1 hfailed).resolve_left failed_get
  obtain ⟨rfl, rfl⟩ := ran_get.1 hget
  split at hfailed
  · exact absurd hfailed failed_pure
  rename_i hkey
  split at hfailed
  case h_2 =>
    rename_i hlocal
    obtain rfl := failed_throw.1 hfailed
    exact Or.inl (.notLocal hlocal)
  rename_i pointer htarget
  split at hfailed
  · rename_i hfound
    obtain rfl := failed_throw.1 hfailed
    exact Or.inl (.unresolved htarget hfound)
  rename_i found hfound
  simp only [produce, failed_bind, not_failed_newName, failed_modify, failed_pure, and_false, exists_false, or_false,
    false_or, ran_modify] at hfailed
  obtain ⟨name, q, hname, _, _, rfl, hfailed⟩ := hfailed
  exact Or.inr ⟨hkey, found, _, name, q, ⟨pointer, htarget, hfound⟩, hname, hfailed⟩

/-- Where lines are not broken, following a reference visits it. -/
theorem follow_follows {l : Layout} (hl : l.newline? 0 = none) (fuel : Nat) : ∀ (target : String) (depth : Nat),
    Follows document strict fuel (follow document strict l fuel target depth) [.reference target] := by
  induction fuel with
  | zero =>
    intro target depth
    rw [follow]
    refine ⟨fun _ hrun => absurd hrun ran_throw, fun _ hfailed rest => ⟨_, .refl, Or.inr ⟨?_, le_rfl⟩⟩⟩
    exact (failed_throw.1 hfailed).symm
  | succ fuel ih =>
    intro target depth
    have hkey : (target, if (l.newline? 0).isSome then depth else 0) = (target, 0) := by rw [hl]; rfl
    constructor
    case returns =>
      intro p source p' hp hrun
      have hcases := ran_follow hrun
      simp only [hkey] at hcases
      obtain ⟨name, hname, -, rfl⟩ | ⟨hlookup, found, base, name, q, body, r, hfound, hname, hbody, -, rfl⟩ := hcases
      · have hmem : target ∈ p'.expanded := by
          by_contra hnew
          rw [hp.lookup_eq_none.2 hnew] at hname
          cases hname
        exact ⟨hp, rfl, fun rest => .single (.known hmem)⟩
      rw [accounts_newName hname] at hbody
      obtain ⟨hq, hexpanded⟩ := hp.file q.names target name
      obtain ⟨hr, hcounts, hsteps⟩ := (toSource_follows ih depth target (ofValue strict found)).returns hq hbody
      refine ⟨hr, ?_, fun rest => (hsteps rest).head (.expand (hp.lookup_eq_none.1 hlookup) hfound)⟩
      simp only [Progress.Accounts, Progress.shared, List.length_cons] at hcounts ⊢
      omega
    case fails =>
      intro p fault hp hfailed rest
      have hcases := failed_follow hfailed
      simp only [hkey] at hcases
      obtain hfaulty | ⟨hlookup, found, base, name, q, hfound, hname, hfailed⟩ := hcases
      · exact ⟨_, .refl, Or.inl ⟨_, _, rfl, hfaulty⟩⟩
      rw [accounts_newName hname] at hfailed
      obtain ⟨hq, hexpanded⟩ := hp.file q.names target name
      obtain ⟨v, hv, hfault⟩ := (toSource_follows ih depth target (ofValue strict found)).fails hq hfailed rest
      refine ⟨v, hv.head (.expand (hp.lookup_eq_none.1 hlookup) hfound), hfault.imp_right fun hdeep => ⟨hdeep.1, ?_⟩⟩
      have hlength := hdeep.2
      rw [hexpanded, List.length_cons] at hlength
      omega

end

/-! ## More open references -/

section

variable {α β : Type}

/-- A conversion does the same as another one, unless that has too many references open. -/
def Extends (f g : Conversion α) : Prop := ∀ p, g.run p = f.run p ∨ f.run p = .error .referencesEndless

theorem Extends.refl (f : Conversion α) : Extends f f := fun _ => Or.inl rfl

theorem Extends.bind {f g : Conversion α} (h : Extends f g) {f' g' : α → Conversion β} (h' : ∀ x, Extends (f' x) (g' x)) :
    Extends (f >>= f') (g >>= g') := by
  intro p
  rw [StateT.run_bind, StateT.run_bind]
  rcases h p with heq | hendless
  · rw [heq]
    cases f.run p with
    | error fault => exact Or.inl rfl
    | ok result => exact h' result.1 result.2
  · rw [hendless]
    exact Or.inr rfl

theorem Extends.map {f g : Conversion α} (h : Extends f g) (k : α → β) :
    Extends (do return k (← f)) (do return k (← g)) := h.bind fun _ => .refl _

mutual

theorem toSource_extends {l : Layout} {follow follow' : String → Nat → Conversion Source}
    (hfollow : ∀ target depth, Extends (follow target depth) (follow' target depth)) (depth : Nat) (path : String) :
    ∀ s : Schema, Extends (s.toSource l follow depth path) (s.toSource l follow' depth path)
  | .reference target => by
    rw [toSource, toSource]
    exact hfollow target depth
  | .any | .invalid _ | .values _ | .boolean | .null | .pattern _ | .string .. | .emptyObject => by
    rw [toSource, toSource]
    exact .refl _
  | .integer lo hi | .number lo hi => by
    cases lo <;> cases hi <;> simp only [toSource] <;> exact .refl _
  | .anyOf _ alternatives => by
    rw [toSource, toSource]
    exact (toAlternatives_extends hfollow depth _ 0 alternatives).map _
  | .allOf single => by
    rw [toSource, toSource]
    exact toSource_extends hfollow depth _ single
  | .types alternatives => by
    rw [toSource, toSource]
    exact (toTypes_extends hfollow depth path alternatives).map _
  | .array initial more least most => by
    rw [toSource, toSource]
    refine (toAlternatives_extends hfollow (depth + 1) _ 0 initial).bind fun items => ?_
    dsimp only
    split
    · exact .refl _
    · exact (toOptional_extends hfollow (depth + 1) _ more).map _
  | .object properties required more mayBeEmpty => by
    rw [toSource, toSource]
    refine (toMembers_extends hfollow (depth + 1) _ required properties).bind fun declared => ?_
    refine (Extends.refl _).bind fun undeclared => ?_
    cases more with
    | none => exact .refl _
    | some schema =>
      exact (Extends.refl _).bind fun key => (toSource_extends hfollow (depth + 1) _ schema).map _

theorem toAlternatives_extends {l : Layout} {follow follow' : String → Nat → Conversion Source}
    (hfollow : ∀ target depth, Extends (follow target depth) (follow' target depth)) (depth : Nat) (path : String)
    (i : Nat) : ∀ ss : List Schema, Extends (toAlternatives l follow depth path i ss) (toAlternatives l follow' depth path i ss)
  | [] => by
    rw [toAlternatives, toAlternatives]
    exact .refl _
  | s :: rest => by
    rw [toAlternatives, toAlternatives]
    exact (toSource_extends hfollow depth _ s).bind fun _ => (toAlternatives_extends hfollow depth path (i + 1) rest).map _

theorem toTypes_extends {l : Layout} {follow follow' : String → Nat → Conversion Source}
    (hfollow : ∀ target depth, Extends (follow target depth) (follow' target depth)) (depth : Nat) (path : String) :
    ∀ ss : List Schema, Extends (toTypes l follow depth path ss) (toTypes l follow' depth path ss)
  | [] => by
    rw [toTypes, toTypes]
    exact .refl _
  | s :: rest => by
    rw [toTypes, toTypes]
    exact (toSource_extends hfollow depth path s).bind fun _ => (toTypes_extends hfollow depth path rest).map _

theorem toOptional_extends {l : Layout} {follow follow' : String → Nat → Conversion Source}
    (hfollow : ∀ target depth, Extends (follow target depth) (follow' target depth)) (depth : Nat) (path : String) :
    ∀ s : Option Schema, Extends (toOptional l follow depth path s) (toOptional l follow' depth path s)
  | none => by
    rw [toOptional, toOptional]
    exact .refl _
  | some s => by
    rw [toOptional, toOptional]
    exact (toSource_extends hfollow depth path s).map _

theorem toMembers_extends {l : Layout} {follow follow' : String → Nat → Conversion Source}
    (hfollow : ∀ target depth, Extends (follow target depth) (follow' target depth)) (depth : Nat) (path : String)
    (required : List String) : ∀ properties : List (String × Schema),
      Extends (toMembers l follow depth path required properties) (toMembers l follow' depth path required properties)
  | [] => by
    rw [toMembers, toMembers]
    exact .refl _
  | (k, s) :: rest => by
    rw [toMembers, toMembers]
    exact (toSource_extends hfollow depth _ s).bind fun _ => (toMembers_extends hfollow depth path required rest).map _

end

/-- Allowing for one more open reference changes nothing where there were not too many. -/
theorem follow_extends (document : Value) (strict : Bool) (l : Layout) (fuel : Nat) : ∀ (target : String) (depth : Nat),
    Extends (follow document strict l fuel target depth) (follow document strict l (fuel + 1) target depth) := by
  induction fuel with
  | zero =>
    intro target depth p
    rw [follow]
    exact Or.inr rfl
  | succ fuel ih =>
    intro target depth
    rw [follow, follow]
    refine (Extends.refl _).bind fun p => ?_
    dsimp only
    split
    · exact .refl _
    split
    · split
      · exact .refl _
      · refine (Extends.refl _).bind fun name => (Extends.refl _).bind fun _ => ?_
        exact (toSource_extends ih depth target _).bind fun body => .refl _
    · exact .refl _

end

/-! ## Documents -/

/-- The conversion of the schema of a document, where no more than `fuel` references may be open at once. -/
def convert (document : Value) (o : Options) (fuel : Nat) : Except Fault (Source × Progress) :=
  ((ofValue o.strict document).toSource (Layout.ofOptions o) (follow document o.strict (Layout.ofOptions o) fuel) 0 "#").run
    Conversion.start

theorem newline?_ofOptions {o : Options} (h : o.anyWhitespace = true ∨ o.indent = none) :
    (Layout.ofOptions o).newline? 0 = none := by
  unfold Layout.ofOptions
  dsimp only
  split
  · rfl
  · rename_i hfixed
    rw [h.resolve_left hfixed]
    rfl

section

variable {document : Value} {o : Options} {ps : List Production}

theorem productions_eq_error {fault : Fault} : productions document o = .error fault ↔
    convert document o (countReferences document + 1) = .error fault := by
  change Except.bind (convert document o (countReferences document + 1)) _ = _ ↔ _
  cases convert document o (countReferences document + 1) <;> simp [Except.bind, pure, Except.pure]

theorem follows_convert (h : (Layout.ofOptions o).newline? 0 = none) (fuel : Nat) :
    Follows document o.strict fuel ((ofValue o.strict document).toSource (Layout.ofOptions o)
      (follow document o.strict (Layout.ofOptions o) fuel) 0 "#") [ofValue o.strict document] :=
  toSource_follows (follow_follows h fuel) 0 "#" _

theorem flat_start : Conversion.start.Flat := List.forall_mem_nil _

/-- Too many references are never open, and where it fails, visits have come to a schema that is faulty. -/
theorem exists_fails (h : (Layout.ofOptions o).newline? 0 = none) {fuel : Nat} {fault : Fault}
    (hfuel : countReferences document < fuel) (hfailed : convert document o fuel = .error fault) :
    ∃ v, Visits.Steps document o.strict (Visits.start document o.strict) v ∧ v.Fails document fault := by
  obtain ⟨v, hv, hfault⟩ := (follows_convert h fuel).fails flat_start hfailed []
  refine ⟨v, hv, hfault.resolve_right fun ⟨_, hlength⟩ => ?_⟩
  have := (Visits.Steps.valid hv (Visits.valid_start document o.strict)).length_le
  have : Conversion.start.expanded.length = 0 := rfl
  omega

theorem ne_endless {v : Visits} {fault : Fault} (h : v.Fails document fault) : fault ≠ .referencesEndless := by
  rintro rfl
  obtain ⟨s, rest, -, hfaulty⟩ := h
  cases hfaulty

theorem convert_succ (h : (Layout.ofOptions o).newline? 0 = none) {fuel : Nat} (hfuel : countReferences document < fuel) :
    convert document o (fuel + 1) = convert document o fuel := by
  refine (toSource_extends (follow_extends document o.strict (Layout.ofOptions o) fuel) 0 "#" _ _).resolve_right fun hendless => ?_
  obtain ⟨v, -, hfails⟩ := exists_fails h hfuel hendless
  exact ne_endless hfails rfl

theorem length_blankProductions_le (o : Options) : (blankProductions o).length ≤ 1 := by
  unfold blankProductions
  split
  · exact le_rfl
  · exact Nat.zero_le _

/-- Each target that has been expanded has a rule of its own, and there are few other rules. -/
theorem exists_rules (h : (Layout.ofOptions o).newline? 0 = none) (hps : productions document o = .ok ps) :
    ∃ (expanded : List String) (rule : String → String),
      Visits.Steps document o.strict (Visits.start document o.strict) ⟨expanded, []⟩ ∧
        (expanded.map rule).Nodup ∧ expanded.map rule ⊆ Production.names ps ∧ ps.length ≤ expanded.length + 6 := by
  rw [productions, Except.bind_eq_ok] at hps
  obtain ⟨⟨root, p⟩, hrun, hps⟩ := hps
  obtain rfl : ⟨"root", [root]⟩ :: p.productions.reverse ++ blankProductions o = ps := Except.ok.inj hps
  obtain ⟨hp, -, -⟩ := (toSource_returns (follow_returns _) 0 "#" _ .root).run complete_start hrun
  obtain ⟨hflat, hcounts, hsteps⟩ := (follows_convert h _).returns flat_start hrun
  have filed {target : String} (htarget : target ∈ p.expanded) : ∃ name, p.references.lookup (target, 0) = some name := by
    rw [← Option.ne_none_iff_exists']
    exact fun hnone => hflat.lookup_eq_none.1 hnone htarget
  have hvalid := Visits.Steps.valid (hsteps []) (Visits.valid_start document o.strict)
  refine ⟨p.expanded, fun target => (p.references.lookup (target, 0)).getD "", hsteps [], ?_, ?_, ?_⟩
  · refine hvalid.nodup.map_on fun target htarget target' htarget' heq => ?_
    obtain ⟨name, hname⟩ := filed htarget
    obtain ⟨name', hname'⟩ := filed htarget'
    rw [hname, hname'] at heq
    obtain rfl : name = name' := heq
    exact (Prod.mk.inj (hp.references.distinct _ _ name hname hname')).1
  · intro name hmem
    obtain ⟨target, htarget, rfl⟩ := List.mem_map.1 hmem
    obtain ⟨name, hname⟩ := filed htarget
    obtain ⟨q, hq, rfl⟩ := List.mem_map.1 (hp.sound.reference _ name hname)
    rw [hname, Option.getD_some]
    exact List.mem_map_of_mem (List.mem_append_left _ (List.mem_cons_of_mem _ (List.mem_reverse.2 hq)))
  · have hshared : p.shared ≤ 4 := by
      unfold Progress.shared
      have hlength (x : Option String) : x.toList.length ≤ 1 := by cases x <;> simp
      have := hlength p.stringChar
      have := hlength p.anyString
      have := hlength p.anyValue
      omega
    have hblank := length_blankProductions_le o
    have hcounts : p.productions.length + 0 + 0 = 0 + p.references.length + p.shared := hcounts
    rw [Progress.expanded, List.length_map, List.length_append, List.length_cons, List.length_reverse]
    omega

end

/-- Where lines are not broken, the conversion of a document ends: the bound on the references that may be open changes
nothing, and visits of the document end, whatever its references lead to. No target is expanded twice. The conversion goes
along with the visits up to a schema that is faulty or up to their end, and then each target that has been expanded has a rule of
its own, and there are no more than six other rules. -/
theorem conversion_ends (document : Value) {o : Options} (h : o.anyWhitespace = true ∨ o.indent = none) :
    (∀ fuel, countReferences document < fuel →
      convert document o fuel = convert document o (countReferences document + 1)) ∧
    productions document o ≠ .error .referencesEndless ∧
    Acc (fun w v => Visits.Step document o.strict v w) (Visits.start document o.strict) ∧
    (∀ v, Visits.Steps document o.strict (Visits.start document o.strict) v →
      v.expanded.Nodup ∧ v.expanded ⊆ targets document) ∧
    (∀ fault, productions document o = .error fault →
      ∃ v, Visits.Steps document o.strict (Visits.start document o.strict) v ∧ v.Fails document fault) ∧
    (∀ ps, productions document o = .ok ps → ∃ (expanded : List String) (rule : String → String),
      Visits.Steps document o.strict (Visits.start document o.strict) ⟨expanded, []⟩ ∧
        (expanded.map rule).Nodup ∧ expanded.map rule ⊆ Production.names ps ∧ ps.length ≤ expanded.length + 6) := by
  have hl := newline?_ofOptions h
  have valid {v : Visits} (hv : Visits.Steps document o.strict (Visits.start document o.strict) v) :=
    Visits.Steps.valid hv (Visits.valid_start document o.strict)
  refine ⟨fun fuel hfuel => ?_, fun hendless => ?_, Visits.acc_of_valid (Visits.valid_start document o.strict),
    fun v hv => ⟨(valid hv).nodup, (valid hv).expanded⟩, fun fault hfault => ?_, fun ps hps => ?_⟩
  · induction fuel, hfuel using Nat.le_induction with
    | base => rfl
    | succ fuel hfuel ih => rw [convert_succ hl hfuel, ih]
  · obtain ⟨v, -, hfails⟩ := exists_fails hl (Nat.lt_succ_self _) (productions_eq_error.1 hendless)
    exact ne_endless hfails rfl
  · exact exists_fails hl (Nat.lt_succ_self _) (productions_eq_error.1 hfault)
  · exact exists_rules hl hps

/-- A reference to itself, for example. -/
theorem selfReference_ends : (∀ fuel, 1 < fuel → convert (.object [("$ref", .string "#")]) .default fuel =
      convert (.object [("$ref", .string "#")]) .default 2) ∧
    productions (.object [("$ref", .string "#")]) .default ≠ .error .referencesEndless := by
  obtain ⟨hfuel, hends, -⟩ := conversion_ends (.object [("$ref", .string "#")]) (o := .default) (Or.inl rfl)
  exact ⟨hfuel, hends⟩

end ConstrainedDecoding.Schema
