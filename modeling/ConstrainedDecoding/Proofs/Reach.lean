import ConstrainedDecoding.Reach
import Mathlib.Data.List.Perm.Subperm

/-!
# What can be reached

The numbers that `reach` finds are the least set that has the seeds and is closed under steps, as
far as they lie below the bound.
-/
namespace ConstrainedDecoding.Reach

variable {next : Nat → List Nat} {size : Nat} {seen : Std.TreeSet Nat}

private theorem mem_insert {x y : Nat} : y ∈ seen.insert x ↔ x = y ∨ y ∈ seen := by simp

/-- One round. -/
private theorem enter_spec (next : Nat → List Nat) (size : Nat) (xs : List Nat) : ∀ (seen : Std.TreeSet Nat) (ahead : List Nat),
    let out := enter next size xs seen ahead
    (∀ x, x ∈ out.1 ↔ x ∈ seen ∨ x ∈ xs ∧ x < size) ∧
    (∀ y, y ∈ out.2 ↔ y ∈ ahead ∨ ∃ x, x ∈ xs ∧ x < size ∧ x ∉ seen ∧ y ∈ next x) := by
  induction xs with
  | nil => simp [enter]
  | cons x xs ih =>
    intro seen ahead
    rw [enter]
    by_cases h : x < size ∧ seen.contains x = false
    · rw [if_pos h]
      obtain ⟨hseen, hahead⟩ := ih (seen.insert x) (next x ++ ahead)
      refine ⟨fun y => ?_, fun y => ?_⟩
      · rw [hseen, mem_insert]
        grind
      · rw [hahead]
        simp only [mem_insert, List.mem_append, List.mem_cons]
        grind
    · rw [if_neg h]
      obtain ⟨hseen, hahead⟩ := ih seen ahead
      have old : x < size → x ∈ seen := fun hx => by simpa using fun hs => h ⟨hx, hs⟩
      refine ⟨fun y => ?_, fun y => ?_⟩
      · rw [hseen]
        grind
      · rw [hahead]
        simp only [List.mem_cons]
        grind

private theorem nodup_toList (seen : Std.TreeSet Nat) : seen.toList.Nodup :=
  Std.TreeSet.distinct_toList.imp fun h => by simpa using h

private theorem size_le_of_lt (h : ∀ x ∈ seen, x < size) : seen.size ≤ size := by
  have subset : seen.toList ⊆ List.range size := fun x hx =>
    List.mem_range.2 (h x (Std.TreeSet.mem_toList.1 hx))
  simpa using ((nodup_toList seen).subperm subset).length_le

private theorem size_lt_of_new {seen' : Std.TreeSet Nat} {x : Nat} (h : ∀ y ∈ seen, y ∈ seen')
    (hx : x ∈ seen') (new : x ∉ seen) : seen.size < seen'.size := by
  have nodup : (x :: seen.toList).Nodup := List.nodup_cons.2 ⟨by simpa using new, nodup_toList seen⟩
  have subset : x :: seen.toList ⊆ seen'.toList := by
    intro y hy
    rcases List.mem_cons.1 hy with rfl | hy
    · simpa using hx
    · simpa using h y (by simpa using hy)
  have : seen.size + 1 ≤ seen'.size := by simpa using (nodup.subperm subset).length_le
  omega

/-- What the rounds add to a set: it is closed under steps, and has what was pending. There is enough
fuel, as each round but the last one adds a number. -/
private theorem visit_spec (fuel : Nat) : ∀ (seen : Std.TreeSet Nat) (pending : List Nat),
    (∀ x ∈ seen, x < size) → (pending ≠ [] → size + 1 ≤ seen.size + fuel) →
    (∀ x ∈ seen, ∀ y ∈ next x, y < size → y ∈ seen ∨ y ∈ pending) →
    (∀ x ∈ seen, x ∈ visit next size fuel seen pending) ∧
    (∀ x ∈ pending, x < size → x ∈ visit next size fuel seen pending) ∧
    ∀ x ∈ visit next size fuel seen pending, ∀ y ∈ next x, y < size →
      y ∈ visit next size fuel seen pending := by
  induction fuel with
  | zero =>
    intro seen pending hlt enough closed
    obtain rfl : pending = [] := by
      by_contra h
      have := enough h
      have := size_le_of_lt hlt
      omega
    exact ⟨fun _ h => h, by simp, by simpa [visit] using closed⟩
  | succ fuel ih =>
    intro seen pending hlt enough closed
    cases pending with
    | nil => exact ⟨fun _ h => h, by simp, by simpa [visit] using closed⟩
    | cons p pending =>
      obtain ⟨hseen, hahead⟩ := enter_spec next size (p :: pending) seen []
      rw [visit]
      generalize enter next size (p :: pending) seen [] = out at hseen hahead
      obtain ⟨seen', ahead⟩ := out
      simp only [List.not_mem_nil, false_or] at hseen hahead
      have hlt' : ∀ x ∈ seen', x < size := fun x hx => by
        rcases (hseen x).1 hx with hx | ⟨-, hx⟩
        exacts [hlt x hx, hx]
      have enough' : ahead ≠ [] → size + 1 ≤ seen'.size + fuel := fun hne => by
        obtain ⟨y, hy⟩ := List.exists_mem_of_ne_nil ahead hne
        obtain ⟨x, hx, hxlt, hnew, -⟩ := (hahead y).1 hy
        have := size_lt_of_new (fun z hz => (hseen z).2 (Or.inl hz))
          ((hseen x).2 (Or.inr ⟨hx, hxlt⟩)) hnew
        have := enough (by simp)
        omega
      have closed' : ∀ x ∈ seen', ∀ y ∈ next x, y < size → y ∈ seen' ∨ y ∈ ahead := by
        intro x hx y hy hylt
        by_cases hxs : x ∈ seen
        · rcases closed x hxs y hy hylt with h | h
          exacts [Or.inl ((hseen y).2 (Or.inl h)), Or.inl ((hseen y).2 (Or.inr ⟨h, hylt⟩))]
        · rcases (hseen x).1 hx with h | ⟨h, hxlt⟩
          exacts [absurd h hxs, Or.inr ((hahead y).2 ⟨x, h, hxlt, hxs, hy⟩)]
      obtain ⟨old, -, step⟩ := ih seen' ahead hlt' enough' closed'
      exact ⟨fun x hx => old x ((hseen x).2 (Or.inl hx)),
        fun x hx hlt => old x ((hseen x).2 (Or.inr ⟨hx, hlt⟩)), step⟩

private theorem visit_sound {P : Nat → Prop}
    (step : ∀ x, P x → ∀ y ∈ next x, y < size → P y) (fuel : Nat) :
    ∀ (seen : Std.TreeSet Nat) (pending : List Nat), (∀ x ∈ seen, x < size ∧ P x) →
      (∀ x ∈ pending, x < size → P x) → ∀ x ∈ visit next size fuel seen pending, x < size ∧ P x := by
  induction fuel with
  | zero => exact fun seen pending hseen _ => hseen
  | succ fuel ih =>
    intro seen pending hseen hpending
    cases pending with
    | nil => exact hseen
    | cons p pending =>
      obtain ⟨hin, hahead⟩ := enter_spec next size (p :: pending) seen []
      rw [visit]
      refine ih _ _ (fun x hx => ?_) fun y hy hlt => ?_
      · rcases (hin x).1 hx with hx | ⟨hx, hlt⟩
        exacts [hseen x hx, ⟨hlt, hpending x hx hlt⟩]
      · rcases (hahead y).1 hy with hy | ⟨x, hx, hxlt, -, hy⟩
        exacts [absurd hy List.not_mem_nil, step x (hpending x hx hxlt) y hy hlt]

private theorem mem_reach {seeds : List Nat} {x : Nat} :
    x ∈ reach next size seeds ↔ x ∈ visit next size (size + 1) ∅ seeds := by
  simp [reach]

private theorem reach_spec (seeds : List Nat) :
    (∀ x ∈ seeds, x < size → x ∈ visit next size (size + 1) ∅ seeds) ∧
    ∀ x ∈ visit next size (size + 1) ∅ seeds, ∀ y ∈ next x, y < size →
      y ∈ visit next size (size + 1) ∅ seeds :=
  (visit_spec (size + 1) ∅ seeds (by simp) (by simp) (by simp)).2

theorem mem_reach_of_seed {seeds : List Nat} {x : Nat} (h : x ∈ seeds) (hlt : x < size) :
    x ∈ reach next size seeds :=
  mem_reach.2 ((reach_spec seeds).1 x h hlt)

theorem mem_reach_of_step {seeds : List Nat} {x y : Nat} (h : x ∈ reach next size seeds)
    (hy : y ∈ next x) (hlt : y < size) : y ∈ reach next size seeds :=
  mem_reach.2 ((reach_spec seeds).2 x (mem_reach.1 h) y hy hlt)

theorem lt_of_mem_reach {seeds : List Nat} {x : Nat} (h : x ∈ reach next size seeds) : x < size :=
  (visit_sound (P := fun _ => True) (by simp) _ ∅ seeds (by simp) (by simp) x (mem_reach.1 h)).1

/-- If as many numbers are reached as there are below the bound, all of these are. -/
theorem mem_reach_of_length_eq {seeds : List Nat} (h : (reach next size seeds).length = size)
    {x : Nat} (hx : x < size) : x ∈ reach next size seeds := by
  have subset : reach next size seeds ⊆ List.range size := fun y hy =>
    List.mem_range.2 (lt_of_mem_reach hy)
  have sub : (reach next size seeds).Subperm (List.range size) :=
    (nodup_toList _).subperm subset
  exact (sub.perm_of_length_le (by simp [h])).mem_iff.2 (List.mem_range.2 hx)

/-- What holds of the seeds and is kept by steps holds of all that is reached. -/
theorem reach_induction {seeds : List Nat} {P : Nat → Prop} (seed : ∀ x ∈ seeds, x < size → P x)
    (step : ∀ x, P x → ∀ y ∈ next x, y < size → P y) : ∀ x ∈ reach next size seeds, P x :=
  fun x h => (visit_sound step _ ∅ seeds (by simp) seed x (mem_reach.1 h)).2

end ConstrainedDecoding.Reach
