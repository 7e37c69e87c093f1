import ConstrainedDecoding.Proofs.Texts
import ConstrainedDecoding.Proofs.TokenMask

/-!
# What one state can tell

A state of the current level knows its own rule only. Yet where its table reads on, a parse survives;
and where no current state reads on and none could have left its rule before, none survives.
-/
namespace ConstrainedDecoding

namespace Table

variable {t : Table}

theorem mayLeave_eq_false {s : StateId} :
    t.mayLeave s = false ↔ t.accepts s = false ∧ t.callsOf s = [] := by
  simp [mayLeave]

theorem run?_append (bs bs' : Bytes) : ∀ s, t.run? s (bs ++ bs') =
    (t.run? s bs).bind fun s' => t.run? s' bs' := by
  induction bs with
  | nil => exact fun s => rfl
  | cons b bs ih =>
    intro s
    rw [List.cons_append, run?, run?]
    cases t.next? s b with
    | none => rfl
    | some s' => exact ih s'

/-- Before bytes that lead to a state that reads there is a state that reads. -/
theorem scansAt_of_run? {rules : Nat} (ht : t.InRange rules) {s s' : StateId} {bs : Bytes}
    (hrun : t.run? s bs = some s') (scans : t.scansAt s' = true) : t.scansAt s = true := by
  cases bs with
  | nil => exact Option.some.inj hrun ▸ scans
  | cons b bs =>
    rw [run?] at hrun
    cases hnext : t.next? s b with
    | none => simp [hnext] at hrun
    | some s₁ => exact ht.scans s b s₁ hnext

end Table

namespace Stack

open Work

variable {c : Compiled} {maxDepth : Nat}

/-- If no first state of a level can leave its rule, the level has no other states, and the text
cannot end there. -/
theorem Work.Changes.of_stays {stack : Stack} {Seed : State → Prop} {w : Work}
    (stays : ∀ s, Seed s → (c.table s.rule).mayLeave s.state = false)
    (h : Changes c maxDepth stack Seed empty w) :
    (∀ s ∈ w.queue, Seed s) ∧ (∀ s ∈ w.scannable, Seed s) ∧ w.ends = false := by
  induction h with
  | refl => simp [empty]
  | @tail w w' _ change ih =>
    obtain ⟨queue, scannable, ends⟩ := ih
    have silent {s : State} (hs : s ∈ w.queue) := Table.mayLeave_eq_false.1 (stays s (queue s hs))
    have open_ {r : RuleId} {entered : Option Nat} : ¬ Ended c w r entered := by
      rintro ⟨s, hs, -, -, accepts⟩
      simp [(silent hs).1] at accepts
    cases change with
    | @seed s seed new => exact ⟨by simpa [add, or_imp, forall_and] using ⟨queue, seed⟩, scannable, ends⟩
    | @pass s seed new scans stays =>
      exact ⟨queue, by simpa [or_imp, forall_and] using ⟨scannable, seed⟩, ends⟩
    | wait mem shallow call => simp [(silent mem).2] at call
    | start mem shallow call new => simp [(silent mem).2] at call
    | resume ended mem new => exact absurd ended open_
    | finish ended => exact absurd ended open_
    | stop ended => exact absurd ended open_
    | @scan s mem scans =>
      exact ⟨queue, by simpa [or_imp, forall_and] using ⟨scannable, queue s mem⟩, ends⟩

/-- If no current state reads a byte string inside its rule, nor does any state after its first
byte. -/
private theorem dies_of_dies (hc : c.Regular) {b : UInt8} {w bs : Bytes}
    (dies : ∀ s ∈ (levels c maxDepth w).current, (c.table s.rule).Dies s.state (b :: bs))
    (alive : (workOf c maxDepth (w ++ [b])).Alive) :
    (∃ s, s ∈ (levels c maxDepth (w ++ [b])).current) ∧
      ∀ s ∈ (levels c maxDepth (w ++ [b])).current, (c.table s.rule).Dies s.state bs := by
  have seeds (s : State) (hs : Seeds c maxDepth (w ++ [b]) s) :
      (c.table s.rule).Dies s.state bs := by
    rw [seeds_append] at hs
    obtain ⟨s, hs, t, ht, rfl⟩ := hs
    exact (dies s hs).2 t ht
  have stays (s : State) (hs : Seeds c maxDepth (w ++ [b]) s) :
      (c.table s.rule).mayLeave s.state = false := by
    have := seeds s hs
    cases bs with
    | nil => exact this.elim
    | cons b' bs => exact this.1
  obtain ⟨-, scannable, ends⟩ := Changes.of_stays stays (workOf_spec hc (w ++ [b])).changes
  rw [current_levels]
  refine ⟨?_, fun s hs => seeds s (scannable s hs)⟩
  rcases alive with alive | alive
  · exact Array.exists_mem_of_ne_empty _ alive
  · exact (Bool.false_ne_true (ends.symm.trans alive)).elim

/-- No parse survives a byte string that no current state reads inside its rule. -/
theorem not_survives_of_dies (hc : c.Regular) (bs : Bytes) : ∀ (b : UInt8) (w : Bytes),
    (∀ s ∈ (levels c maxDepth w).current, (c.table s.rule).Dies s.state (b :: bs)) →
      ¬ Survives c maxDepth w (b :: bs) := by
  induction bs with
  | nil =>
    intro b w dies survives
    obtain ⟨⟨s, hs⟩, dies⟩ := dies_of_dies hc dies (survives_cons.1 survives).1
    exact dies s hs
  | cons b' bs ih =>
    intro b w dies survives
    obtain ⟨alive, survives⟩ := survives_cons.1 survives
    exact ih b' (w ++ [b]) (dies_of_dies hc dies alive).2 survives

/-- Where the table of a current state reads a byte string up to a state that reads, a parse survives
all of it. -/
theorem survives_of_run? (hc : c.Regular) (bs : Bytes) : ∀ (w : Bytes) (s : State) (t : StateId),
    s ∈ (levels c maxDepth w).current → (c.table s.rule).run? s.state bs = some t →
      (c.table s.rule).scansAt t = true → Survives c maxDepth w bs := by
  induction bs with
  | nil => simp
  | cons b bs ih =>
    intro w s t hs hrun scans
    have built : Built c maxDepth (below c maxDepth (w ++ [b])) (Seeds c maxDepth (w ++ [b]))
        (workOf c maxDepth (w ++ [b])) := workOf_spec hc (w ++ [b])
    rw [Table.run?] at hrun
    cases hnext : (c.table s.rule).next? s.state b with
    | none => simp [hnext] at hrun
    | some s₁ =>
      simp only [hnext] at hrun
      have rule_lt : s.rule < c.tables.size :=
        (before_of_current (inRange_levels hc w) hs).rule_lt
      have seed : Seeds c maxDepth (w ++ [b]) { s with state := s₁ } := by
        rw [seeds_append]
        exact ⟨s, hs, s₁, hnext, rfl⟩
      obtain ⟨s', hs', hrule, hstate, -⟩ := built.exists_scannable (built.seeds _ seed)
        (Table.scansAt_of_run? (hc.table _ rule_lt) hrun scans)
      refine survives_cons.2 ⟨Or.inl (Array.ne_empty_of_mem hs'), ih (w ++ [b]) s' t ?_ ?_ ?_⟩
      · rwa [current_levels]
      · rwa [hrule, hstate]
      · rwa [hrule]

/-- Where the table of a current state reads a byte string, a parse survives all but the last byte. -/
theorem survives_dropLast_of_run? (hc : c.Regular) {w bs : Bytes} {b : UInt8} {s : State}
    {t : StateId} (hs : s ∈ (levels c maxDepth w).current)
    (hrun : (c.table s.rule).run? s.state (bs ++ [b]) = some t) : Survives c maxDepth w bs := by
  rw [Table.run?_append, Option.bind_eq_some_iff] at hrun
  obtain ⟨s₁, hrun, hlast⟩ := hrun
  have rule_lt : s.rule < c.tables.size := (before_of_current (inRange_levels hc w) hs).rule_lt
  rw [Table.run?] at hlast
  cases hnext : (c.table s.rule).next? s₁ b with
  | none => simp [hnext] at hlast
  | some t' => exact survives_of_run? hc bs w s s₁ hs hrun ((hc.table _ rule_lt).scans s₁ b t' hnext)

end Stack

end ConstrainedDecoding
