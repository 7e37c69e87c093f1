import ConstrainedDecoding.Proofs.Folds
import ConstrainedDecoding.Proofs.Names
import ConstrainedDecoding.Proofs.Productions
import ConstrainedDecoding.Proofs.SchemaSources

/-!
# What a conversion produces

A conversion only adds to its progress. Each rule that it makes a name for gets one production, and
each production is the one for a character, for a string, for a number, for any value, or for the
target of a reference.
-/
namespace ConstrainedDecoding.Schema

open Ebnf (Source Production IsName continuesName)
open Json (Value)
open Conversion

/-! ## Runs -/

namespace Conversion

/-- A conversion goes from one progress to another and returns a value. -/
def Ran {α : Type} (f : Conversion α) (p : Progress) (x : α) (p' : Progress) : Prop :=
  f.run p = .ok (x, p')

section

variable {α β : Type} {p p' : Progress}

theorem Ran.unique {f : Conversion α} {x y : α} {q : Progress} (h : Ran f p x p') (h' : Ran f p y q) :
    x = y ∧ p' = q := by
  have := Except.ok.inj (h.symm.trans h')
  exact Prod.mk.inj this

@[simp] theorem ran_pure {x y : α} : Ran (pure x : Conversion α) p y p' ↔ x = y ∧ p = p' := by
  rw [Ran, StateT.run_pure]
  simp [pure, Except.pure]

@[simp] theorem ran_bind {f : Conversion α} {g : α → Conversion β} {y : β} :
    Ran (f >>= g) p y p' ↔ ∃ x q, Ran f p x q ∧ Ran (g x) q y p' := by
  simp only [Ran, StateT.run_bind, Except.bind_eq_ok, Prod.exists]

@[simp] theorem ran_map {f : Conversion α} {g : α → β} {y : β} :
    Ran (g <$> f) p y p' ↔ ∃ x, Ran f p x p' ∧ g x = y := by
  rw [Ran, StateT.run_map, show (_ <$> f.run p) = Except.map _ (f.run p) from rfl, Except.map_eq_ok]
  simp [Ran]

@[simp] theorem ran_get {x : Progress} : Ran get p x p' ↔ p = x ∧ p = p' := by
  simp [Ran, pure, Except.pure]

@[simp] theorem ran_set {q : Progress} {u : Unit} : Ran (set q) p u p' ↔ q = p' := by
  simp [Ran, pure, Except.pure]

@[simp] theorem ran_modify {f : Progress → Progress} {u : Unit} : Ran (modify f) p u p' ↔ f p = p' := by
  simp [Ran, pure, Except.pure]

@[simp] theorem ran_throw {fault : Fault} {x : α} : ¬ Ran (throw fault : Conversion α) p x p' := by
  simp [Ran, throw, throwThe, MonadExceptOf.throw, StateT.run, StateT.lift, bind, Except.bind]

@[simp] theorem ran_lift {f : Except Fault α} {x : α} :
    Ran (f : Conversion α) p x p' ↔ f = .ok x ∧ p = p' := by
  cases f <;> simp [Ran, liftM, monadLift, MonadLift.monadLift, StateT.lift, StateT.run, bind, Except.bind, pure, Except.pure]

end

end Conversion

/-! ## New names -/

theorem continuesName_of_isAlphanum {c : Char} (h : c.isAlphanum = true) : continuesName c = true := by
  rcases Bool.or_eq_true _ _ ▸ h with h | h
  · exact Ebnf.continuesName_of_startsName (by simp [Ebnf.startsName, h])
  · exact Ebnf.continuesName_of_isDigit h

theorem isName_sanitize (base : String) : IsName (sanitize base) := by
  have inside : ∀ d ∈ base.toList.map fun c => if c.isAlphanum then c else '_', continuesName d = true := by
    intro d hd
    obtain ⟨c, -, rfl⟩ := List.mem_map.1 hd
    split
    · exact continuesName_of_isAlphanum ‹_›
    · decide
  unfold sanitize
  generalize base.toList.map (fun c => if c.isAlphanum then c else '_') = cs at inside
  dsimp only
  split
  · rename_i hstart
    match cs with
    | c :: cs =>
      have hc : c.isAlpha = true := by simpa using hstart
      exact ⟨c, cs, String.toList_ofList, by simp [Ebnf.startsName, hc], (List.forall_mem_cons.1 inside).2⟩
  · exact ⟨'r', '_' :: cs, String.toList_ofList, by decide,
      List.forall_mem_cons.2 ⟨by decide, inside⟩⟩

/-! ## Schemas that are asked for -/

/-- The schemas right inside a schema. -/
def children : Schema → List Schema
  | .anyOf _ alternatives | .types alternatives => alternatives
  | .allOf single => [single]
  | .array initial more _ _ => initial ++ more.toList
  | .object properties _ more _ => properties.map Prod.snd ++ more.toList
  | _ => []

/-- A target names a part of the document. -/
def Resolves (document : Value) (target : String) (found : Value) : Prop :=
  ∃ pointer, target.toList = '#' :: pointer ∧ document.pointer? (String.ofList pointer) = some found

/-- A document asks for the schema that it spells, for the schemas inside one that it asks for, and for
those that references lead to. -/
inductive Asked (document : Value) (strict : Bool) : Schema → Prop
  | root : Asked document strict (ofValue strict document)
  | child {s t} : Asked document strict s → t ∈ s.children → Asked document strict t
  | target {target found} : Asked document strict (.reference target) → Resolves document target found →
      Asked document strict (ofValue strict found)

/-! ## Sound progress -/

section

variable {document : Value} {strict : Bool} {l : Layout}

/-- What a production is for. -/
inductive Origin (document : Value) (strict : Bool) (l : Layout) (p : Progress) : Production → Prop
  | char {n} : n ∈ p.stringChar → Origin document strict l p ⟨n, charAlternatives⟩
  | string {n c} : n ∈ p.anyString → c ∈ p.stringChar → Origin document strict l p ⟨n, [quotedStar c]⟩
  | number {n} : Origin document strict l p ⟨n, [numberSource]⟩
  | value {n s m} : n ∈ p.anyValue → s ∈ p.anyString → ⟨m, [numberSource]⟩ ∈ p.productions →
      Origin document strict l p ⟨n, valueAlternatives l n s m⟩
  | reference {n target depth found body} : n ∈ p.references.lookup (target, l.level depth) →
      Asked document strict (ofValue strict found) → body ∈ source? p l depth (ofValue strict found) →
      Origin document strict l p ⟨n, [body]⟩

theorem Origin.mono {p p' : Progress} {q : Production} (h : Origin document strict l p q) (hgrows : p.Grows p') :
    Origin document strict l p' q := by
  cases h with
  | char hn => exact .char (hgrows.stringChar _ hn)
  | string hn hc => exact .string (hgrows.anyString _ hn) (hgrows.stringChar _ hc)
  | number => exact .number
  | value hn hs hm => exact .value (hgrows.anyValue _ hn) (hgrows.anyString _ hs) (hgrows.productions hm)
  | reference hn hfound hbody =>
    exact .reference (hgrows.references _ _ hn) hfound (source?_mono hgrows _ _ _ hbody)

/-- The names that are taken, where `pending` have no production yet. -/
def Progress.taken (p : Progress) (pending : List String) : List String :=
  "root" :: "ws" :: (pending ++ p.productions.map (·.name))

/-- A progress in which every name has one production, or is pending. -/
structure Sound (document : Value) (strict : Bool) (l : Layout) (pending : List String) (p : Progress) : Prop where
  names : ∃ ns, p.names.Lists ns ∧ ns.Perm (p.taken pending)
  nodup : (p.taken pending).Nodup
  named : ∀ n ∈ p.taken pending, IsName n
  char : ∀ n ∈ p.stringChar, ⟨n, charAlternatives⟩ ∈ p.productions
  reference : ∀ key, ∀ n ∈ p.references.lookup key, n ∈ pending ++ p.productions.map (·.name)
  apart : ∀ key, ∀ n ∈ p.references.lookup key, n ∉ p.stringChar
  origin : ∀ q ∈ p.productions, Origin document strict l p q

section

variable {pending : List String} {p p' : Progress}

/-- The rule for any string has its production. -/
def StringMade (p : Progress) : Prop :=
  ∀ n ∈ p.anyString, ∃ c ∈ p.stringChar, ⟨n, [quotedStar c]⟩ ∈ p.productions

/-- The rule for any value has its production. -/
def ValueMade (l : Layout) (p : Progress) : Prop :=
  ∀ n ∈ p.anyValue, ∃ s ∈ p.anyString, ∃ m, ⟨m, [numberSource]⟩ ∈ p.productions ∧
    ⟨n, valueAlternatives l n s m⟩ ∈ p.productions

theorem StringMade.mono (h : StringMade p) (hgrows : p.Grows p') (heq : p'.anyString = p.anyString) :
    StringMade p' := by
  intro n hn
  obtain ⟨c, hc, hmem⟩ := h n (heq ▸ hn)
  exact ⟨c, hgrows.stringChar c hc, hgrows.productions hmem⟩

theorem ValueMade.mono (h : ValueMade l p) (hgrows : p.Grows p') (heq : p'.anyValue = p.anyValue) :
    ValueMade l p' := by
  intro n hn
  obtain ⟨s, hs, m, hm, hmem⟩ := h n (heq ▸ hn)
  exact ⟨s, hgrows.anyString s hs, m, hgrows.productions hm, hgrows.productions hmem⟩

theorem newName_spec (h : Sound document strict l pending p) (base : String) :
    ∃ n, Ran (newName base) p n { p with names := p.names.declare n } ∧
      Sound document strict l (n :: pending) { p with names := p.names.declare n } ∧
        n ∉ p.taken pending := by
  obtain ⟨ns, hlists, hperm⟩ := h.names
  have fresh : p.names.unused (sanitize base) ∉ p.taken pending := by
    rw [← hperm.mem_iff, ← hlists.find?_eq_none]
    exact NameTable.find?_unused _ _
  refine ⟨p.names.unused (sanitize base), by simp [newName], ?_, fresh⟩
  generalize hn : p.names.unused (sanitize base) = n at fresh
  have named : IsName n := hn ▸ Ebnf.isName_of_derived (isName_sanitize base) (NameTable.derived_unused _ _)
  have perm : (n :: p.taken pending).Perm (p.taken (n :: pending)) := by
    simp only [Progress.taken, List.cons_append]
    exact (List.Perm.swap _ _ _).trans ((List.Perm.swap _ _ _).cons _)
  refine ⟨⟨ns ++ [n], hlists.declare n, ?_⟩, ?_, ?_, h.char, fun key m hm => ?_, h.apart, fun q hq => ?_⟩
  · exact (List.perm_append_singleton n ns).trans ((hperm.cons n).trans perm)
  · exact perm.nodup_iff.1 (List.nodup_cons.2 ⟨fresh, h.nodup⟩)
  · intro m hm
    rcases List.mem_cons.1 (perm.mem_iff.2 hm) with rfl | hm
    · exact named
    · exact h.named m hm
  · exact List.mem_cons_of_mem _ (h.reference key m hm)
  · exact (h.origin q hq).mono ⟨fun _ h => h, fun _ h => h, fun _ h => h, fun _ _ h => h, fun _ h => h⟩

/-- The fields for any value and any string do not matter. -/
theorem Sound.withFields (h : Sound document strict l pending p) (hgrows : p.Grows p')
    (hnames : p'.names = p.names) (hproductions : p'.productions = p.productions)
    (hchar : p'.stringChar = p.stringChar) (hreferences : p'.references = p.references) :
    Sound document strict l pending p' := by
  have taken : p'.taken pending = p.taken pending := by rw [Progress.taken, hproductions, Progress.taken]
  refine ⟨by rw [taken, hnames]; exact h.names, taken ▸ h.nodup, taken ▸ h.named, ?_, ?_, ?_, ?_⟩
  · rw [hchar, hproductions]
    exact h.char
  · rw [hreferences, hproductions]
    exact h.reference
  · rw [hreferences, hchar]
    exact h.apart
  · rw [hproductions]
    exact fun q hq => (h.origin q hq).mono hgrows

/-- A pending name gets its production. -/
theorem Sound.produce {n : String} {ss : List Source} (h : Sound document strict l (n :: pending) p)
    (hgrows : p.Grows p') (hnames : p'.names = p.names) (hproductions : p'.productions = ⟨n, ss⟩ :: p.productions)
    (hchar : ∀ c ∈ p'.stringChar, ⟨c, charAlternatives⟩ ∈ p'.productions)
    (hreferences : p'.references = p.references) (hapart : ∀ key, ∀ n ∈ p.references.lookup key, n ∉ p'.stringChar)
    (horigin : Origin document strict l p' ⟨n, ss⟩) : Sound document strict l pending p' := by
  have perm : (p.taken (n :: pending)).Perm (p'.taken pending) := by
    simp only [Progress.taken, hproductions, List.map_cons, List.cons_append]
    exact ((List.perm_middle.symm).cons _).cons _
  obtain ⟨ns, hlists, hperm⟩ := h.names
  refine ⟨⟨ns, hnames ▸ hlists, hperm.trans perm⟩, perm.nodup_iff.1 h.nodup,
    fun m hm => h.named m (perm.mem_iff.2 hm), hchar, fun key m hm => ?_, hreferences ▸ hapart, ?_⟩
  · have := h.reference key m (hreferences ▸ hm)
    simp only [hproductions, List.map_cons]
    simpa [or_left_comm] using this
  · rw [hproductions]
    exact List.forall_mem_cons.2 ⟨horigin, fun q hq => (h.origin q hq).mono hgrows⟩

/-! ## Rules for every JSON value -/

theorem stringChar_spec (h : Sound document strict l pending p) :
    ∃ c p', Ran stringChar p c p' ∧ Sound document strict l pending p' ∧ p.Grows p' ∧ c ∈ p'.stringChar ∧
      p'.anyString = p.anyString ∧ p'.anyValue = p.anyValue ∧ p'.references = p.references := by
  cases hc : p.stringChar with
  | some c => exact ⟨c, p, by simp [stringChar, hc], h, .refl p, hc, rfl, rfl, rfl⟩
  | none =>
    obtain ⟨n, hrun, hsound, hfresh⟩ := newName_spec h "json_char"
    let p' : Progress := { p with
      names := p.names.declare n, stringChar := some n, productions := ⟨n, charAlternatives⟩ :: p.productions }
    have grows : p.Grows p' :=
      ⟨fun _ h => h, fun _ h => h, by simp [hc], fun _ _ h => h, List.subset_cons_self _ _⟩
    refine ⟨n, p', ?_, hsound.produce ⟨fun _ h => h, fun _ h => h, by simp [hc], fun _ _ h => h,
      List.subset_cons_self _ _⟩ rfl rfl ?_ rfl ?_ (.char rfl), grows, rfl, rfl, rfl, rfl⟩
    · refine ran_bind.2 ⟨p, p, ran_get.2 ⟨rfl, rfl⟩, ?_⟩
      simp only [hc]
      refine ran_bind.2 ⟨n, _, hrun, ?_⟩
      simp [p', Conversion.produce, charAlternatives]
    · rintro c ⟨⟩
      exact List.mem_cons_self
    · -- the name is new, and those of references are taken
      rintro key m hm ⟨⟩
      exact hfresh (List.mem_cons_of_mem _ (List.mem_cons_of_mem _ (h.reference key n hm)))

theorem grows_produce (p : Progress) (q : Production) :
    p.Grows { p with productions := q :: p.productions } :=
  ⟨fun _ h => h, fun _ h => h, fun _ h => h, fun _ _ h => h, List.subset_cons_self _ _⟩

theorem anyString_spec (h : Sound document strict l pending p) (hmade : StringMade p) :
    ∃ n p', Ran anyString p n p' ∧ Sound document strict l pending p' ∧ StringMade p' ∧ p.Grows p' ∧
      n ∈ p'.anyString ∧ p'.anyValue = p.anyValue ∧ p'.references = p.references := by
  cases hn : p.anyString with
  | some n => exact ⟨n, p, by simp [anyString, hn], h, hmade, .refl p, hn, rfl, rfl⟩
  | none =>
    obtain ⟨n, hrun, hsound, -⟩ := newName_spec h "json_string"
    let q : Progress := { p with names := p.names.declare n, anyString := some n }
    have hgrows : p.Grows q := ⟨fun _ h => h, by simp [hn], fun _ h => h, fun _ _ h => h, fun _ h => h⟩
    have hq : Sound document strict l (n :: pending) q :=
      hsound.withFields ⟨fun _ h => h, by simp [hn], fun _ h => h, fun _ _ h => h, fun _ h => h⟩ rfl rfl rfl rfl
    obtain ⟨c, r, hchar, hr, hgrows', hc, hstring, hvalue, hreferences⟩ := stringChar_spec hq
    let p' : Progress := { r with productions := ⟨n, [quotedStar c]⟩ :: r.productions }
    have hn' : n ∈ p'.anyString := hstring.trans rfl
    refine ⟨n, p', ?_, ?_, ?_, (hgrows.trans hgrows').trans (grows_produce r _), hn', hvalue, hreferences⟩
    · refine ran_bind.2 ⟨p, p, ran_get.2 ⟨rfl, rfl⟩, ?_⟩
      simp only [hn]
      refine ran_bind.2 ⟨n, _, hrun, ran_bind.2 ⟨(), q, ran_modify.2 rfl, ran_bind.2 ⟨c, r, hchar, ?_⟩⟩⟩
      simp [p', Conversion.produce, quotedStar]
    · exact hr.produce (grows_produce r _) rfl rfl (fun c hc => List.mem_cons_of_mem _ (hr.char c hc)) rfl hr.apart
        (.string hn' hc)
    · intro m hm
      obtain rfl := Option.some.inj (hn'.symm.trans hm)
      exact ⟨c, hc, List.mem_cons_self⟩

theorem anyValue_spec (h : Sound document strict l pending p) (hstring : StringMade p) (hvalue : ValueMade l p) :
    ∃ n p', Ran (anyValue l) p n p' ∧ Sound document strict l pending p' ∧ StringMade p' ∧ ValueMade l p' ∧
      p.Grows p' ∧ n ∈ p'.anyValue ∧ p'.references = p.references := by
  cases hn : p.anyValue with
  | some n => exact ⟨n, p, by simp [anyValue, hn], h, hstring, hvalue, .refl p, hn, rfl⟩
  | none =>
    obtain ⟨n, hrun, hsound, -⟩ := newName_spec h "any_value"
    let q : Progress := { p with names := p.names.declare n, anyValue := some n }
    have hgrows : p.Grows q := ⟨by simp [hn], fun _ h => h, fun _ h => h, fun _ _ h => h, fun _ h => h⟩
    have hq : Sound document strict l (n :: pending) q :=
      hsound.withFields ⟨by simp [hn], fun _ h => h, fun _ h => h, fun _ _ h => h, fun _ h => h⟩ rfl rfl rfl rfl
    obtain ⟨s, r, hrun', hr, hmade, hgrows', hs, hany, hreferences⟩ := anyString_spec hq (hstring.mono hgrows rfl)
    obtain ⟨m, hrun'', hm, -⟩ := newName_spec hr "json_number"
    let t : Progress := { r with
      names := r.names.declare m, productions := ⟨m, [numberSource]⟩ :: r.productions }
    have ht : Sound document strict l (n :: pending) t :=
      hm.produce (grows_produce _ _) rfl rfl (fun c hc => List.mem_cons_of_mem _ (hr.char c hc)) rfl hr.apart .number
    let p' : Progress := { t with productions := ⟨n, valueAlternatives l n s m⟩ :: t.productions }
    have hgrows'' : r.Grows p' := ⟨fun _ h => h, fun _ h => h, fun _ h => h, fun _ _ h => h,
      fun _ h => List.mem_cons_of_mem _ (List.mem_cons_of_mem _ h)⟩
    have hn' : n ∈ p'.anyValue := hany.trans rfl
    have hm' : ⟨m, [numberSource]⟩ ∈ p'.productions := List.mem_cons_of_mem _ List.mem_cons_self
    refine ⟨n, p', ?_, ?_, hmade.mono hgrows'' rfl, ?_, (hgrows.trans hgrows').trans hgrows'', hn', hreferences⟩
    · refine ran_bind.2 ⟨p, p, ran_get.2 ⟨rfl, rfl⟩, ?_⟩
      simp only [hn]
      refine ran_bind.2 ⟨n, _, hrun, ran_bind.2 ⟨(), q, ran_modify.2 rfl, ran_bind.2 ⟨s, r, hrun', ?_⟩⟩⟩
      refine ran_bind.2 ⟨m, _, hrun'', ran_bind.2 ⟨(), t, ran_modify.2 rfl, ?_⟩⟩
      simp [p', Conversion.produce, valueAlternatives]
    · exact ht.produce (grows_produce t _) rfl rfl (fun c hc => List.mem_cons_of_mem _ (ht.char c hc)) rfl ht.apart
        (.value hn' hs hm')
    · intro k hk
      obtain rfl := Option.some.inj (hn'.symm.trans hk)
      exact ⟨s, hs, m, hm', List.mem_cons_self⟩

/-! ## Schemas -/

/-- Each reference has a rule of its own, whose production, unless it is pending, is for the target. -/
structure ReferencesMade (document : Value) (strict : Bool) (l : Layout) (pending : List String) (p : Progress) :
    Prop where
  distinct : ∀ key key', ∀ n ∈ p.references.lookup key, n ∈ p.references.lookup key' → key = key'
  made : ∀ target level, ∀ n ∈ p.references.lookup (target, level), n ∉ pending → ∃ depth found body,
    level = l.level depth ∧ Resolves document target found ∧ Asked document strict (ofValue strict found) ∧
      body ∈ source? p l depth (ofValue strict found) ∧ ⟨n, [body]⟩ ∈ p.productions

theorem ReferencesMade.mono {pending : List String} {p p' : Progress} (h : ReferencesMade document strict l pending p)
    (hgrows : p.Grows p') (heq : p'.references = p.references) : ReferencesMade document strict l pending p' := by
  refine ⟨heq ▸ h.distinct, fun target level n hn hpending => ?_⟩
  obtain ⟨depth, found, body, hlevel, hfound, hasked, hbody, hmem⟩ := h.made target level n (heq ▸ hn) hpending
  exact ⟨depth, found, body, hlevel, hfound, hasked, source?_mono hgrows _ _ _ hbody, hgrows.productions hmem⟩

/-- A sound progress in which the rules for every JSON value, and those of references, have their productions. -/
structure Complete (document : Value) (strict : Bool) (l : Layout) (pending : List String) (p : Progress) :
    Prop where
  sound : Sound document strict l pending p
  string : StringMade p
  value : ValueMade l p
  references : ReferencesMade document strict l pending p

/-- A conversion returns what is given by the rules that there are afterwards, and by all later ones. -/
structure Returns {α : Type} (document : Value) (strict : Bool) (l : Layout) (f : Conversion α)
    (result : Progress → Option α) : Prop where
  run : ∀ {pending p x p'}, Complete document strict l pending p → Ran f p x p' →
    Complete document strict l pending p' ∧ p.Grows p' ∧ x ∈ result p'
  mono : ∀ {p p'}, p.Grows p' → ∀ x ∈ result p, x ∈ result p'

namespace Returns

variable {α β : Type} {f : Conversion α} {result : Progress → Option α}

theorem pure (x : α) : Returns document strict l (pure x) fun _ => some x where
  run h hrun := by
    obtain ⟨rfl, rfl⟩ := ran_pure.1 hrun
    exact ⟨h, .refl _, rfl⟩
  mono _ _ h := h

theorem congr {f' : Conversion α} (h : Returns document strict l f result) (heq : f = f') :
    Returns document strict l f' result := heq ▸ h

theorem bind (h : Returns document strict l f result) {g : α → Conversion β} {next : α → Progress → Option β}
    (hg : ∀ x, Returns document strict l (g x) (next x)) :
    Returns document strict l (f >>= g) fun p => (result p).bind (next · p) where
  run hp hrun := by
    obtain ⟨x, q, hf, hrun⟩ := ran_bind.1 hrun
    obtain ⟨hq, hgrows, hx⟩ := h.run hp hf
    obtain ⟨hp', hgrows', hy⟩ := (hg x).run hq hrun
    exact ⟨hp', hgrows.trans hgrows', Option.mem_bind_iff.2 ⟨x, h.mono hgrows' x hx, hy⟩⟩
  mono hgrows := bind_mono (h.mono hgrows) fun x => (hg x).mono hgrows

theorem map (h : Returns document strict l f result) (g : α → β) :
    Returns document strict l (do return g (← f)) fun p => (result p).map g := by
  have := h.bind fun x => pure (g x)
  simpa only [Option.map_eq_bind, Function.comp_def] using this

theorem throw (fault : Fault) : Returns document strict l (throw fault : Conversion α) fun _ => none where
  run _ hrun := absurd hrun ran_throw
  mono _ _ h := h

theorem lift (e : Except Fault α) : Returns document strict l (e : Conversion α) fun _ => e.toOption where
  run h hrun := by
    obtain ⟨rfl, rfl⟩ := ran_lift.1 hrun
    exact ⟨h, .refl _, rfl⟩
  mono _ _ h := h

theorem mapM {f : α → Conversion β} {result : α → Progress → Option β}
    (h : ∀ x, Returns document strict l (f x) (result x)) (xs : List α) :
    Returns document strict l (xs.mapM f) fun p => xs.mapM (result · p) := by
  induction xs with
  | nil => exact pure []
  | cons x xs ih =>
    simp only [List.mapM_cons]
    exact (h x).bind fun _ => ih.bind fun _ => pure _

end Returns

theorem stringChar_returns : Returns document strict l stringChar (·.stringChar) where
  run h hrun := by
    obtain ⟨c, p', hrun', hsound, hgrows, hc, hstring, hvalue, hreferences⟩ := stringChar_spec h.sound
    obtain ⟨rfl, rfl⟩ := hrun.unique hrun'
    exact ⟨⟨hsound, h.string.mono hgrows hstring, h.value.mono hgrows hvalue, h.references.mono hgrows hreferences⟩,
      hgrows, hc⟩
  mono hgrows := hgrows.stringChar

theorem anyString_returns : Returns document strict l anyString (·.anyString) where
  run h hrun := by
    obtain ⟨n, p', hrun', hsound, hmade, hgrows, hn, hvalue, hreferences⟩ := anyString_spec h.sound h.string
    obtain ⟨rfl, rfl⟩ := hrun.unique hrun'
    exact ⟨⟨hsound, hmade, h.value.mono hgrows hvalue, h.references.mono hgrows hreferences⟩, hgrows, hn⟩
  mono hgrows := hgrows.anyString

theorem anyValue_returns : Returns document strict l (anyValue l) (·.anyValue) where
  run h hrun := by
    obtain ⟨n, p', hrun', hsound, hstring, hvalue, hgrows, hn, hreferences⟩ :=
      anyValue_spec h.sound h.string h.value
    obtain ⟨rfl, rfl⟩ := hrun.unique hrun'
    exact ⟨⟨hsound, hstring, hvalue, h.references.mono hgrows hreferences⟩, hgrows, hn⟩
  mono hgrows := hgrows.anyValue

theorem stringSource_returns (least : Nat) (most : Option Nat) :
    Returns document strict l (stringSource least most) fun p => source? p l 0 (.string least most) := by
  simp only [stringSource, source?]
  split
  · exact anyString_returns.map Source.name
  · refine (stringChar_returns.map fun char => quotedTimes char least most).congr ?_
    refine bind_congr fun char => ?_
    unfold quotedTimes
    cases (Source.name char).repeated least most <;> rfl

mutual

theorem toSource_returns {follow : String → Nat → Conversion Source}
    (hfollow : ∀ target depth, Asked document strict (.reference target) →
      Returns document strict l (follow target depth) fun p => source? p l depth (.reference target)) (depth : Nat) (path : String) :
    ∀ s : Schema, Asked document strict s →
      Returns document strict l (s.toSource l follow depth path) fun p => source? p l depth s
  | .any, _ => by
    simp only [toSource, source?]
    exact anyValue_returns.map Source.name
  | .invalid cause, _ => by
    simp only [toSource, source?]
    exact .throw _
  | .values vs, _ => by
    simp only [toSource, source?]
    exact .pure _
  | .reference target, h => by
    simp only [toSource]
    exact hfollow target depth h
  | .anyOf key alternatives, h => by
    simp only [toSource, source?]
    exact (toAlternatives_returns hfollow depth _ 0 alternatives fun _ hs => h.child hs).map _
  | .types alternatives, h => by
    simp only [toSource, source?]
    exact (toTypes_returns hfollow depth path alternatives fun _ hs => h.child hs).map _
  | .allOf single, h => by
    simp only [toSource, source?]
    exact toSource_returns hfollow depth _ single (h.child (List.mem_singleton_self _))
  | .boolean, _ | .null, _ | .emptyObject, _ => by
    simp only [toSource, source?]
    exact .pure _
  | .pattern text, _ => by
    simp only [toSource, source?]
    exact .lift _
  | .string least most, _ => by
    simp only [toSource]
    exact stringSource_returns least most
  | .integer lo hi, _ => by
    cases lo <;> cases hi <;>
      · simp only [toSource, source?]
        exact .pure _
  | .number none none, _ => by
    simp only [toSource, source?]
    exact .pure _
  | .number (some lo) hi, _ | .number none (some hi), _ => by
    simp only [toSource, source?]
    cases Regex.decimalsBetween _ _
    · exact .throw _
    · exact .pure _
  | .array initial more least most, h => by
    simp only [toSource, source?]
    refine (toAlternatives_returns hfollow (depth + 1) _ 0 initial fun _ hs =>
      h.child (List.mem_append_left _ hs)).bind fun items => ?_
    split
    · exact (Returns.pure none).map _
    · exact (toOptional_returns hfollow (depth + 1) _ more fun _ hs =>
        h.child (List.mem_append_right _ (Option.mem_toList.2 hs))).map _
  | .object properties required more mayBeEmpty, h => by
    simp only [toSource, source?]
    refine (toMembers_returns hfollow (depth + 1) _ required properties fun m hm =>
      h.child (List.mem_append_left _ (List.mem_map_of_mem hm))).bind fun declared => ?_
    refine (Returns.mapM (fun k => anyValue_returns.map fun value => freeMember l value k) _).bind
      fun undeclared => ?_
    match more with
    | none =>
      simp only [extra?]
      exact (Returns.pure none).map _
    | some schema =>
      simp only [extra?]
      have hschema : Asked document strict schema := h.child (List.mem_append_right _ (by simp))
      refine ((anyString_returns.bind fun key => (toSource_returns hfollow (depth + 1)
        (path ++ "/additionalProperties") schema hschema).map fun value => some ([.name key] ++ l.keyValueSeparator ++ [value])).map _).congr ?_
      simp only [bind_assoc, pure_bind]

theorem toAlternatives_returns {follow : String → Nat → Conversion Source}
    (hfollow : ∀ target depth, Asked document strict (.reference target) →
      Returns document strict l (follow target depth) fun p => source? p l depth (.reference target)) (depth : Nat) (path : String) (i : Nat) :
    ∀ ss : List Schema, (∀ s ∈ ss, Asked document strict s) →
      Returns document strict l (toAlternatives l follow depth path i ss) fun p => sources? p l depth ss
  | [], _ => by
    simp only [toAlternatives, sources?]
    exact .pure _
  | s :: rest, h => by
    simp only [toAlternatives, sources?]
    obtain ⟨hs, hrest⟩ := List.forall_mem_cons.1 h
    exact (toSource_returns hfollow depth _ s hs).bind fun _ =>
      (toAlternatives_returns hfollow depth path (i + 1) rest hrest).map _

theorem toTypes_returns {follow : String → Nat → Conversion Source}
    (hfollow : ∀ target depth, Asked document strict (.reference target) →
      Returns document strict l (follow target depth) fun p => source? p l depth (.reference target)) (depth : Nat) (path : String) :
    ∀ ss : List Schema, (∀ s ∈ ss, Asked document strict s) →
      Returns document strict l (toTypes l follow depth path ss) fun p => sources? p l depth ss
  | [], _ => by
    simp only [toTypes, sources?]
    exact .pure _
  | s :: rest, h => by
    simp only [toTypes, sources?]
    obtain ⟨hs, hrest⟩ := List.forall_mem_cons.1 h
    exact (toSource_returns hfollow depth _ s hs).bind fun _ =>
      (toTypes_returns hfollow depth path rest hrest).map _

theorem toOptional_returns {follow : String → Nat → Conversion Source}
    (hfollow : ∀ target depth, Asked document strict (.reference target) →
      Returns document strict l (follow target depth) fun p => source? p l depth (.reference target)) (depth : Nat) (path : String) :
    ∀ o : Option Schema, (∀ s ∈ o, Asked document strict s) →
      Returns document strict l (toOptional l follow depth path o) fun p => optional? p l depth o
  | none, _ => by
    simp only [toOptional, optional?]
    exact .pure _
  | some s, h => by
    simp only [toOptional, optional?]
    exact (toSource_returns hfollow depth _ s (h s rfl)).map _

theorem toMembers_returns {follow : String → Nat → Conversion Source}
    (hfollow : ∀ target depth, Asked document strict (.reference target) →
      Returns document strict l (follow target depth) fun p => source? p l depth (.reference target)) (depth : Nat) (path : String) (required : List String) :
    ∀ properties : List (String × Schema), (∀ m ∈ properties, Asked document strict m.2) →
      Returns document strict l (toMembers l follow depth path required properties)
        fun p => members? p l depth required properties
  | [], _ => by
    simp only [toMembers, members?]
    exact .pure _
  | (k, s) :: rest, h => by
    simp only [toMembers, members?]
    obtain ⟨hs, hrest⟩ := List.forall_mem_cons.1 h
    exact (toSource_returns hfollow depth _ s hs).bind fun _ =>
      (toMembers_returns hfollow depth path required rest hrest).map _

end

/-! ## References -/

/-- A new name is filed for a reference. -/
theorem Complete.withReference {key : String × Nat} {n : String} (h : Complete document strict l pending p)
    (hkey : p.references.lookup key = none)
    (hsound : Sound document strict l (n :: pending) { p with names := p.names.declare n }) :
    let q : Progress := { p with names := p.names.declare n, references := (key, n) :: p.references }
    Complete document strict l (n :: pending) q ∧ p.Grows q ∧ n ∈ q.references.lookup key := by
  intro q
  have lookup (k : String × Nat) (m : String) (hm : m ∈ p.references.lookup k) : m ∈ q.references.lookup k := by
    have hne : k ≠ key := by
      rintro rfl
      simp [hkey] at hm
    simpa [q, List.lookup_cons, beq_false_of_ne hne] using hm
  have hgrows : p.Grows q := ⟨fun _ h => h, fun _ h => h, fun _ h => h, lookup, fun _ h => h⟩
  -- the name is new, or it is that of an older reference
  have filed {k : String × Nat} {m : String} (hm : m ∈ q.references.lookup k) :
      m = n ∧ k = key ∨ m ∈ p.references.lookup k := by
    by_cases hk : k = key
    · left
      exact ⟨by simpa [q, hk, eq_comm] using hm, hk⟩
    · right
      simpa [q, List.lookup_cons, beq_false_of_ne hk] using hm
  have fresh : n ∉ pending ++ p.productions.map (·.name) :=
    (List.nodup_cons.1 (List.nodup_cons.1 (List.nodup_cons.1 hsound.nodup).2).2).1
  have unfiled {k : String × Nat} : n ∉ p.references.lookup k := fun hm => fresh (h.sound.reference k n hm)
  refine ⟨⟨⟨hsound.names, hsound.nodup, hsound.named, hsound.char, fun k m hm => ?_, fun k m hm hchar => ?_,
    fun r hr => (h.sound.origin r hr).mono hgrows⟩, h.string.mono hgrows rfl, h.value.mono hgrows rfl,
    fun k k' m hm hm' => ?_, fun target level m hm hpending => ?_⟩, hgrows, ?_⟩
  · rcases filed hm with ⟨rfl, -⟩ | hm
    · exact List.mem_cons_self
    · exact hsound.reference k m hm
  · rcases filed hm with ⟨rfl, -⟩ | hm
    · exact fresh (List.mem_append_right _ (List.mem_map_of_mem (h.sound.char m hchar)))
    · exact hsound.apart k m hm hchar
  · rcases filed hm with ⟨hn, hk⟩ | hold
    · rcases filed hm' with ⟨-, hk'⟩ | hold'
      · exact hk.trans hk'.symm
      · exact absurd (hn ▸ hold') unfiled
    · rcases filed hm' with ⟨hn, -⟩ | hold'
      · exact absurd (hn ▸ hold) unfiled
      · exact h.references.distinct k k' m hold hold'
  · obtain ⟨hne, hpending⟩ := not_or.1 (mt List.mem_cons.2 hpending)
    have hm : m ∈ p.references.lookup (target, level) := (filed hm).resolve_left fun heq => hne heq.1
    obtain ⟨depth, found, body, hlevel, hfound, hasked, hbody, hmem⟩ := h.references.made target level m hm hpending
    exact ⟨depth, found, body, hlevel, hfound, hasked, source?_mono hgrows _ _ _ hbody, hmem⟩
  · simp [q]

/-- A reference is followed to its rule: it has one, or the part that it leads to is converted and put into a new one. -/
theorem ran_follow {fuel : Nat} {target : String} {depth : Nat} {p p' : Progress} {source : Source}
    (hrun : Ran (follow document strict l (fuel + 1) target depth) p source p') :
    let key := (target, if (l.newline? 0).isSome then depth else 0)
    (∃ name, p.references.lookup key = some name ∧ source = .name name ∧ p' = p) ∨
      p.references.lookup key = none ∧ ∃ found base name q body r, Resolves document target found ∧
        Ran (newName base) p name q ∧
        Ran ((ofValue strict found).toSource l (follow document strict l fuel) depth target)
          { q with references := (key, name) :: q.references } body r ∧
        source = .name name ∧ p' = { r with productions := ⟨name, [body]⟩ :: r.productions } := by
  intro key
  rw [follow] at hrun
  obtain ⟨q, _, hget, hrun⟩ := ran_bind.1 hrun
  obtain ⟨rfl, rfl⟩ := ran_get.1 hget
  split at hrun
  · rename_i name hname
    obtain ⟨rfl, rfl⟩ := ran_pure.1 hrun
    exact Or.inl ⟨name, hname, rfl, rfl⟩
  rename_i hkey
  split at hrun
  case h_2 => exact absurd hrun ran_throw
  rename_i pointer htarget
  split at hrun
  · exact absurd hrun ran_throw
  rename_i found hfound
  simp only [produce, ran_bind, ran_modify, ran_pure] at hrun
  obtain ⟨name, q, hname, _, _, rfl, body, r, hbody, _, _, rfl, rfl, rfl⟩ := hrun
  exact Or.inr ⟨hkey, found, _, name, q, body, r, ⟨pointer, htarget, hfound⟩, hname, hbody, rfl, rfl⟩

theorem follow_returns (fuel : Nat) : ∀ (target : String) (depth : Nat), Asked document strict (.reference target) →
    Returns document strict l (follow document strict l fuel target depth)
      fun p => source? p l depth (.reference target) := by
  induction fuel with
  | zero => exact fun target depth _ => ⟨fun _ hrun => absurd hrun ran_throw, fun h => source?_mono h depth _⟩
  | succ fuel ih =>
    refine fun target depth hasked => ⟨fun {pending p source p'} hp hrun => ?_, fun h => source?_mono h depth _⟩
    obtain ⟨name, hname, rfl, rfl⟩ | ⟨hkey, found, base, name, q, body, t, hresolves, hname, hbody, rfl, rfl⟩ := ran_follow hrun
    · exact ⟨hp, .refl _, Option.mem_map_of_mem Source.name hname⟩
    obtain ⟨n, hname', hsound, -⟩ := newName_spec hp.sound base
    obtain ⟨rfl, rfl⟩ := hname.unique hname'
    obtain ⟨hq, hgrows, hlookup⟩ := hp.withReference hkey hsound
    have hfound : Asked document strict (ofValue strict found) := hasked.target hresolves
    obtain ⟨ht, hgrows', hsource⟩ := (toSource_returns ih depth target _ hfound).run hq hbody
    have grows := grows_produce t ⟨name, [body]⟩
    have hlookup := grows.references _ _ (hgrows'.references _ _ hlookup)
    have hsource := source?_mono grows _ _ _ hsource
    refine ⟨⟨?_, ht.string.mono grows rfl, ht.value.mono grows rfl, ht.references.distinct, fun target' level m hm hpending => ?_⟩,
      hgrows.trans (hgrows'.trans grows), Option.mem_map_of_mem Source.name hlookup⟩
    · exact ht.sound.produce grows rfl rfl (fun c hc => List.mem_cons_of_mem _ (ht.sound.char c hc)) rfl ht.sound.apart
        (.reference hlookup hfound hsource)
    -- the rule that was pending is the one that gets its production
    · by_cases hne : m = name
      · subst hne
        obtain ⟨rfl, rfl⟩ := Prod.mk.inj (ht.references.distinct _ _ m hm hlookup)
        exact ⟨depth, found, body, rfl, hresolves, hfound, hsource, List.mem_cons_self⟩
      · obtain ⟨depth', found', body', hlevel, hfound', hasked', hbody', hmem⟩ := ht.references.made target' level m hm
          (mt List.mem_cons.1 (not_or.2 ⟨hne, hpending⟩))
        exact ⟨depth', found', body', hlevel, hfound', hasked', source?_mono grows _ _ _ hbody',
          List.mem_cons_of_mem _ hmem⟩

/-! ## Documents -/

theorem complete_start : Complete document strict l [] Conversion.start := by
  have named : ∀ n ∈ ["root", "ws"], IsName n := by
    simp [IsName, Ebnf.startsName, continuesName]
  have none {P : String → Prop} : ∀ n ∈ (none : Option String), P n := by simp
  refine ⟨⟨⟨["root", "ws"], ?_, .refl _⟩, (by decide : ["root", "ws"].Nodup), named, none, fun _ => none, fun _ => none,
    List.forall_mem_nil _⟩, none, none, fun _ _ => none, fun _ _ => none⟩
  exact (NameTable.lists_empty.declare "root").declare "ws"

end

/-- The production for white space, if the layout has any. -/
def blankProductions (o : Options) : List Production :=
  match Layout.ofOptions o with
  | .anyWhitespace .. => [⟨"ws", [whitespaceSource o]⟩]
  | .fixed .. => []

/-- The productions of a document are those of a complete progress, after the one for its schema. -/
theorem exists_complete {o : Options} {ps : List Production} (h : productions document o = .ok ps) :
    ∃ p root, Complete document o.strict (Layout.ofOptions o) [] p ∧
      root ∈ source? p (Layout.ofOptions o) 0 (ofValue o.strict document) ∧
        ps = ⟨"root", [root]⟩ :: p.productions.reverse ++ blankProductions o := by
  rw [productions, Except.bind_eq_ok] at h
  obtain ⟨⟨root, p⟩, hrun, h⟩ := h
  obtain ⟨hp, -, hroot⟩ := (toSource_returns (follow_returns _) 0 "#" _ .root).run complete_start hrun
  obtain rfl := Except.ok.inj h
  exact ⟨p, root, hp, hroot, rfl⟩

theorem written_of_ebnfText {o : Options} {text : String} (h : ebnfText document o = .ok text) :
    ∃ ps, productions document o = .ok ps ∧ Production.Written ps text := by
  obtain ⟨ps, hps, rfl⟩ := Except.map_eq_ok.1 h
  exact ⟨ps, hps, 0, by rw [toList_foldl_append]; rfl⟩

end

end ConstrainedDecoding.Schema
