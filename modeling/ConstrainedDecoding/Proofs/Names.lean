import ConstrainedDecoding.Grammar.NameTable
import Mathlib.Data.List.Nodup
import Mathlib.Data.List.Perm.Subperm
import Std.Data.String.ToNat

/-!
# What name tables find

A table finds the first place of a name among the declared ones, and the name that it derives from a
base is new: one of the numbered names is, as there are more of them than names in the table.
-/
namespace ConstrainedDecoding.NameTable

/-- The names of a table in the order of their declaration. -/
structure Lists (t : NameTable) (names : List String) : Prop where
  size : t.size = names.length
  find : ∀ name, t.find? name = names.findIdx? (· == name)

theorem lists_empty : empty.Lists [] := ⟨rfl, fun name => by simp [empty, find?]⟩

theorem find?_declare_of_eq_some {t : NameTable} {name : String} {r : RuleId}
    (h : t.find? name = some r) (other : String) : (t.declare other).find? name = some r := by
  have hmem : name ∈ t.ids := by
    rw [← Std.HashMap.isSome_getElem?_iff_mem, show t.ids[name]? = some r from h]
    rfl
  rw [find?, NameTable.declare, Std.HashMap.getElem?_insertIfNew, show t.ids[name]? = some r from h]
  by_cases heq : other = name
  · simp [heq, hmem]
  · simp [heq]

theorem Lists.declare {t : NameTable} {names : List String} (h : t.Lists names) (name : String) :
    (t.declare name).Lists (names ++ [name]) := by
  refine ⟨by simp [NameTable.declare, h.size], fun other => ?_⟩
  have hfind := h.find other
  have hname := h.find name
  simp only [find?] at hfind hname
  rw [List.findIdx?_append, find?, NameTable.declare, Std.HashMap.getElem?_insertIfNew, hfind, h.size]
  by_cases heq : name = other
  · subst heq
    cases hn : names.findIdx? (· == name) with
    | none =>
      have : name ∉ t.ids := fun hmem => by
        simp [← Std.HashMap.isSome_getElem?_iff_mem, hname, hn] at hmem
      simp [this]
    | some i =>
      have : name ∈ t.ids := by
        rw [← Std.HashMap.isSome_getElem?_iff_mem, hname, hn]
        rfl
      simp [this]
  · simp [heq]

theorem Lists.find?_eq_none {t : NameTable} {names : List String} (h : t.Lists names) {name : String} :
    t.find? name = none ↔ name ∉ names := by
  rw [h.find, List.findIdx?_eq_none_iff]
  simp only [beq_eq_false_iff_ne, ne_eq]
  exact ⟨fun hall hmem => hall name hmem rfl, fun hmem x hx heq => hmem (heq ▸ hx)⟩

theorem Lists.find?_getElem {t : NameTable} {names : List String} (h : t.Lists names)
    (hnodup : names.Nodup) {r : Nat} (hr : r < names.length) : t.find? names[r] = some r := by
  rw [h.find, List.findIdx?_eq_some_iff_getElem]
  refine ⟨hr, by simp, fun j hj heq => ?_⟩
  have : j = r := hnodup.getElem_inj_iff.1 (by simpa using heq)
  omega

/-! ## New names -/

/-- A base or one of its numbered names. -/
def Derived (base name : String) : Prop := name = base ∨ ∃ i : Nat, name = base ++ "_" ++ toString i

private theorem numbered_spec (t : NameTable) (base : String) (tries : Nat) : ∀ i : Nat,
    (∃ j : Nat, t.numbered base tries i = base ++ "_" ++ toString j) ∧
    (t.find? (t.numbered base tries i) = none ∨
      ∀ j : Nat, i ≤ j → j < i + tries → t.find? (base ++ "_" ++ toString j) ≠ none) := by
  induction tries with
  | zero => exact fun i => ⟨⟨i, rfl⟩, Or.inr fun j _ _ => by omega⟩
  | succ tries ih =>
    intro i
    rw [numbered]
    split
    · rename_i h
      exact ⟨⟨i, rfl⟩, Or.inl (by simpa using h)⟩
    · rename_i h
      refine ⟨(ih (i + 1)).1, (ih (i + 1)).2.imp_right fun hall j hij hj => ?_⟩
      rcases Nat.lt_or_eq_of_le hij with hlt | rfl
      · exact hall j hlt (by omega)
      · simpa using h

theorem derived_unused (t : NameTable) (base : String) : Derived base (t.unused base) := by
  unfold unused
  split
  · exact Or.inl rfl
  · exact Or.inr (numbered_spec t base _ 1).1

private theorem base_ne_numbered (base : String) (i : Nat) : base ≠ base ++ "_" ++ toString i := by
  intro h
  have := congrArg String.length h
  simp only [String.length_append] at this
  have : "_".length = 1 := rfl
  omega

private theorem numbered_inj {base : String} {i j : Nat}
    (h : base ++ "_" ++ toString i = base ++ "_" ++ toString j) : i = j :=
  Nat.repr_inj.1 ((String.append_right_inj _).1 h)

/-- The name that a table derives is in no table entry: the base and as many numbered names as there
are entries cannot all be taken. -/
theorem find?_unused (t : NameTable) (base : String) : t.find? (t.unused base) = none := by
  unfold unused
  split
  · rename_i h
    simpa using h
  · rename_i h
    rcases (numbered_spec t base t.ids.size 1).2 with hnew | hall
    · exact hnew
    · exfalso
      let taken := base :: (List.range' 1 t.ids.size).map fun i => base ++ "_" ++ toString i
      have nodup : taken.Nodup := by
        refine List.nodup_cons.2 ⟨fun hmem => ?_, List.Nodup.map (fun i j => numbered_inj) List.nodup_range'⟩
        obtain ⟨i, -, hi⟩ := List.mem_map.1 hmem
        exact base_ne_numbered base i hi.symm
      have mem_keys : ∀ name, t.find? name ≠ none → name ∈ t.ids.keys := fun name hname => by
        rw [Std.HashMap.mem_keys, ← Std.HashMap.isSome_getElem?_iff_mem]
        exact Option.isSome_iff_ne_none.2 hname
      have subset : taken ⊆ t.ids.keys := by
        intro name hname
        rcases List.mem_cons.1 hname with rfl | hname
        · exact mem_keys _ (by simpa using h)
        · obtain ⟨i, hi, rfl⟩ := List.mem_map.1 hname
          obtain ⟨hle, hlt⟩ := List.mem_range'_1.1 hi
          exact mem_keys _ (hall i hle hlt)
      have := (nodup.subperm subset).length_le
      simp only [taken, List.length_cons, List.length_map, List.length_range',
        Std.HashMap.length_keys] at this
      omega

end ConstrainedDecoding.NameTable
