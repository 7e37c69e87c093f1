import ConstrainedDecoding.Matcher.Forced
import ConstrainedDecoding.Matcher.Mask

/-!
# Matchers that stand at the same place

What a matcher does next depends on where it stands, not on what it has recorded. Forgetting entries
of the history leaves a matcher where it stands.
-/
namespace ConstrainedDecoding.Matcher

/-- A position without what is recorded. -/
def Position.bare : Position → Position
  | .single s _ => .single s []
  | .stacked stack => .stacked stack

/-- Two matchers stand at the same place of the same grammar, with the same options. What they have
recorded may differ. -/
structure Agree (m m' : Matcher) : Prop where
  compiled : m.compiled = m'.compiled
  stopIds : m.stopIds = m'.stopIds
  endsAlone : m.endsAlone = m'.endsAlone
  horizon : m.horizon = m'.horizon
  maxDepth : m.maxDepth = m'.maxDepth
  position : m.position.bare = m'.position.bare
  stopped : m.stopped = m'.stopped

namespace Agree

variable {m m' m'' : Matcher}

theorem refl (m : Matcher) : Agree m m := ⟨rfl, rfl, rfl, rfl, rfl, rfl, rfl⟩

theorem symm (h : Agree m m') : Agree m' m :=
  ⟨h.compiled.symm, h.stopIds.symm, h.endsAlone.symm, h.horizon.symm, h.maxDepth.symm,
    h.position.symm, h.stopped.symm⟩

theorem trans (h : Agree m m') (h' : Agree m' m'') : Agree m m'' :=
  ⟨h.compiled.trans h'.compiled, h.stopIds.trans h'.stopIds, h.endsAlone.trans h'.endsAlone,
    h.horizon.trans h'.horizon, h.maxDepth.trans h'.maxDepth, h.position.trans h'.position,
    h.stopped.trans h'.stopped⟩

/-- Both matchers are at the same state of the table, or have the same stack. -/
theorem cases (h : Agree m m') :
    (∃ s before before', m.position = .single s before ∧ m'.position = .single s before') ∨
      ∃ stack, m.position = .stacked stack ∧ m'.position = .stacked stack := by
  have := h.position
  cases hm : m.position <;> cases hm' : m'.position <;> simp_all [Position.bare]

theorem rootTable (h : Agree m m') : m.rootTable = m'.rootTable := by
  simp only [Matcher.rootTable, h.compiled]

theorem ceiling (h : Agree m m') : m.ceiling = m'.ceiling := by
  simp only [Matcher.ceiling, h.maxDepth]

theorem mayEnd (h : Agree m m') : m.mayEnd = m'.mayEnd := by
  rcases h.cases with ⟨s, before, before', hm, hm'⟩ | ⟨stack, hm, hm'⟩ <;>
    simp only [Matcher.mayEnd, hm, hm', h.rootTable]

theorem isTerminated (h : Agree m m') : m.isTerminated = m'.isTerminated := by
  simp only [Matcher.isTerminated, h.stopped, h.endsAlone, h.mayEnd]

/-- Matchers that agree still do after both moved to the same stack. -/
theorem moved (h : Agree m m') (stack : Stack) :
    Agree { m with position := .stacked stack } { m' with position := .stacked stack } :=
  ⟨h.compiled, h.stopIds, h.endsAlone, h.horizon, h.maxDepth, rfl, h.stopped⟩

theorem setStops (h : Agree m m') (row : Bitmask) : m.setStops row = m'.setStops row := by
  simp only [Matcher.setStops, h.stopIds, h.compiled, h.mayEnd]

theorem overwrite (h : Agree m m') (row : Bitmask) :
    (m.overwrite row).1 = (m'.overwrite row).1 := by
  simp only [Matcher.overwrite]
  by_cases hs : m.stopped = true
  · rw [if_pos hs, if_pos (h.stopped ▸ hs)]
  · rw [if_neg hs, if_neg (h.stopped ▸ hs)]
    rcases h.cases with ⟨s, before, before', hm, hm'⟩ | ⟨stack, hm, hm'⟩
    · simp only [hm, hm']
      rw [h.setStops, h.compiled]
    · simp only [hm, hm']
      rw [(h.moved _).setStops, h.compiled, h.ceiling]

theorem row (h : Agree m m') : m.row = m'.row := by
  rw [Matcher.row, h.overwrite, h.compiled, Matcher.row]

theorem fill (h : Agree m m') (buffer : Bitmask) (batch : Nat) :
    (m.fill buffer batch).1 = (m'.fill buffer batch).1 := by
  simp only [Matcher.fill, h.compiled]
  split
  · rfl
  · simp only [h.overwrite]

theorem forcedText (h : Agree m m') : m.forcedText = m'.forcedText := by
  simp only [Matcher.forcedText, jump, findForced, h.stopped, h.compiled, h.ceiling, h.rootTable]
  split
  · rfl
  · rcases h.cases with ⟨s, before, before', hm, hm'⟩ | ⟨stack, hm, hm'⟩ <;> simp only [hm, hm']

end Agree

theorem agree_forgetOldest (m : Matcher) : Agree m.forgetOldest m := by
  unfold forgetOldest
  split
  · rename_i hm
    exact ⟨rfl, rfl, rfl, rfl, rfl, by simp [Position.bare, hm], rfl⟩
  · exact ⟨rfl, rfl, rfl, rfl, rfl, rfl, rfl⟩

theorem agree_forget (n : Nat) : ∀ m : Matcher, Agree (forget n m) m := by
  induction n with
  | zero => exact Agree.refl
  | succ n ih => exact fun m => (ih _).trans (agree_forgetOldest m)

/-- Recording an entry leaves a matcher where it stands. -/
theorem agree_record (m : Matcher) (e : Entry) : Agree (m.record e) m :=
  (agree_forget _ _).trans ⟨rfl, rfl, rfl, rfl, rfl, rfl, rfl⟩

/-- Recording what was read does not change whether it could be read. -/
theorem read_fst (m : Matcher) (bytes : Bytes) : (m.read bytes).1 = (m.advance bytes).1 := by
  rw [Matcher.read]
  cases m.advance bytes with
  | mk done m' => cases done <;> rfl

/-- Nor does it change whether the text may end. -/
theorem mayEnd_read (m : Matcher) (bytes : Bytes) :
    (m.read bytes).2.mayEnd = (m.advance bytes).2.mayEnd := by
  rw [Matcher.read]
  cases m.advance bytes with
  | mk done m' =>
    cases done with
    | false => rfl
    | true => exact (agree_record m' _).mayEnd

end ConstrainedDecoding.Matcher
