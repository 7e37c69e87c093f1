import ConstrainedDecoding.Proofs.Wiring

/-!
# Edges that wiring adds

Whatever is wired between two states, the edges that are added leave the first state or a new one,
and lead to the second state or to a new one. So nothing is wired into the first state or out of the
second, nor at any other state that there was, and what shares the two states stays apart.
-/
namespace ConstrainedDecoding

open Nfa (Edge addState addEdge)

/-- The edges that an automaton has more than another one leave `start` or states from number `size` on,
and lead to `stop` or to states from number `size` on. -/
structure Apart (size : Nat) (start stop : StateId) (n n' : Nfa) : Prop where
  size_le : n.edges.size ≤ n'.edges.size
  edges : ∀ s, ∃ added, n'.edgesOf s = added ++ n.edgesOf s ∧
    ∀ e ∈ added, (s = start ∨ size ≤ s) ∧ (e.target = stop ∨ size ≤ e.target)

namespace Apart

variable {size size' : Nat} {start stop start' stop' : StateId} {n n' n'' : Nfa}

theorem refl (size : Nat) (start stop : StateId) (n : Nfa) : Apart size start stop n n :=
  ⟨le_rfl, fun _ => ⟨[], rfl, by simp⟩⟩

theorem trans (h : Apart size start stop n n') (h' : Apart size start stop n' n'') :
    Apart size start stop n n'' := by
  refine ⟨h.size_le.trans h'.size_le, fun s => ?_⟩
  obtain ⟨first, hfirst, hall⟩ := h.edges s
  obtain ⟨second, hsecond, hall'⟩ := h'.edges s
  refine ⟨second ++ first, by rw [hsecond, hfirst, List.append_assoc], ?_⟩
  exact List.forall_mem_append.2 ⟨hall', hall⟩

/-- What is wired between further states, each of them new or on its own side, stays apart too. -/
theorem widen (h : Apart size' start' stop' n n') (hsize : size ≤ size')
    (hstart : start' = start ∨ size ≤ start') (hstop : stop' = stop ∨ size ≤ stop') :
    Apart size start stop n n' := by
  refine ⟨h.size_le, fun s => ?_⟩
  obtain ⟨added, hadded, hall⟩ := h.edges s
  refine ⟨added, hadded, fun e he => ?_⟩
  obtain ⟨hs, ht⟩ := hall e he
  refine ⟨?_, ?_⟩
  · rcases hs with rfl | hs
    exacts [hstart, Or.inr (hsize.trans hs)]
  · rcases ht with ht | ht
    exacts [ht ▸ hstop, Or.inr (hsize.trans ht)]

theorem of_addState (size : Nat) (start stop : StateId) (n : Nfa) :
    Apart size start stop n (addState n).2 :=
  ⟨by rw [Nfa.size_addState]; omega, fun s => ⟨[], Nfa.edgesOf_addState n s, by simp⟩⟩

theorem of_addEdge {s : StateId} {e : Edge} (hs : s = start ∨ size ≤ s)
    (he : e.target = stop ∨ size ≤ e.target) : Apart size start stop n (addEdge s e n).2 := by
  refine ⟨by simp [Nfa.addEdge], fun s' => ?_⟩
  by_cases hlt : s < n.edges.size
  · rw [Nfa.edgesOf_addEdge hlt]
    split
    · rename_i heq
      subst heq
      exact ⟨[e], rfl, by simp [hs, he]⟩
    · exact ⟨[], rfl, by simp⟩
  · refine ⟨[], ?_, by simp⟩
    by_cases heq : s = s'
    · subst heq
      simp [Nfa.addEdge, Nfa.edgesOf, Array.getD_eq_getD_getElem?, hlt]
    · simp [Nfa.addEdge, Nfa.edgesOf, Array.getD_eq_getD_getElem?, Array.getElem?_modify, heq]

/-- No edge is added at a state that there was, other than at the first one. -/
theorem edgesOf_eq (h : Apart n.edges.size start stop n n') {s : StateId} (hs : s < n.edges.size)
    (hne : s ≠ start) : n'.edgesOf s = n.edgesOf s := by
  obtain ⟨added, hadded, hall⟩ := h.edges s
  cases added with
  | nil => exact hadded
  | cons e added =>
    rcases (hall e List.mem_cons_self).1 with rfl | hnew
    exacts [absurd rfl hne, absurd hs (not_lt.2 hnew)]

end Apart

/-- Whatever two states an action is given, what it wires stays apart. -/
def Isolates (act : StateId → StateId → StateM Nfa Unit) : Prop :=
  ∀ (n : Nfa) (start stop : StateId), Apart n.edges.size start stop n (act start stop n).2

variable {n : Nfa} {start stop : StateId}

/-- A new state, what is wired up to it, and what is wired from it on. -/
theorem Apart.through {n₁ n₂ : Nfa} (start stop : StateId)
    (h₁ : Apart (addState n).2.edges.size start n.edges.size (addState n).2 n₁)
    (h₂ : Apart n₁.edges.size n.edges.size stop n₁ n₂) :
    Apart n.edges.size start stop n n₂ := by
  have new := Apart.of_addState n.edges.size start stop n
  have size := new.size_le
  have size₁ := h₁.size_le
  exact new.trans ((h₁.widen size (Or.inl rfl) (Or.inr le_rfl)).trans
    (h₂.widen (by omega) (Or.inr le_rfl) (Or.inl rfl)))

mutual

theorem Utf8Paths.apart_wire : ∀ (paths : Utf8Paths) (n : Nfa) (start stop : StateId),
    Apart n.edges.size start stop n (paths.wire start stop n).2
  | .last lo hi, n, start, stop => by
    rw [Utf8Paths.wire]
    exact Apart.of_addEdge (Or.inl rfl) (Or.inl rfl)
  | .branch branches, n, start, stop => by
    rw [Utf8Paths.wire]
    exact Utf8Paths.apart_wireBranches branches n start stop

theorem Utf8Paths.apart_wireBranches :
    ∀ (branches : List ((UInt8 × UInt8) × Utf8Paths)) (n : Nfa) (start stop : StateId),
      Apart n.edges.size start stop n (Utf8Paths.wireBranches start stop branches n).2
  | [], n, start, stop => by
    rw [Utf8Paths.wireBranches]
    exact Apart.refl _ _ _ n
  | ((lo, hi), paths) :: rest, n, start, stop => by
    rw [Utf8Paths.wireBranches]
    have first := Apart.through (n := n) start stop
      (Apart.of_addEdge (e := .byte lo hi n.edges.size) (Or.inl rfl) (Or.inl rfl))
      (Utf8Paths.apart_wire paths _ n.edges.size stop)
    exact first.trans ((Utf8Paths.apart_wireBranches rest _ start stop).widen first.size_le
      (Or.inl rfl) (Or.inl rfl))

end

theorem CharClass.isolates_wire (set : CharClass) : Isolates set.wire := by
  have all (pathss : List Utf8Paths) (n : Nfa) (start stop : StateId) :
      Apart n.edges.size start stop n (pathss.forM (fun paths => paths.wire start stop) n).2 := by
    induction pathss generalizing n with
    | nil => exact Apart.refl _ _ _ n
    | cons paths pathss ih =>
      have first := paths.apart_wire n start stop
      exact first.trans ((ih _).widen first.size_le (Or.inl rfl) (Or.inl rfl))
  exact fun n start stop => all set.utf8Paths n start stop

namespace Expansion

theorem apart_wireLiteral (bytes : Bytes) : ∀ (n : Nfa) (start stop : StateId),
    Apart n.edges.size start stop n (wireLiteral start stop bytes n).2 := by
  induction bytes with
  | nil => exact fun n start stop => Apart.of_addEdge (Or.inl rfl) (Or.inl rfl)
  | cons b bs ih =>
    intro n start stop
    cases bs with
    | nil => exact Apart.of_addEdge (Or.inl rfl) (Or.inl rfl)
    | cons c bs =>
      exact Apart.through start stop
        (Apart.of_addEdge (e := .byte b b n.edges.size) (Or.inl rfl) (Or.inl rfl))
        (ih _ n.edges.size stop)

section

variable {copy : StateId → StateId → StateM Nfa Unit} (h : Isolates copy)

include h

theorem isolates_wireStar : Isolates (wireStar copy) := by
  intro n start stop
  let N := n.edges.size
  let n₁ := (addState (addState n).2).2
  have run : (wireStar copy start stop n).2 = (addEdge (addState n).2.edges.size (.silent N)
      (copy N (addState n).2.edges.size (addEdge N (.silent stop)
        (addEdge start (.silent N) n₁).2).2).2).2 := rfl
  rw [run, Nfa.size_addState]
  have w₁ : Apart N start stop n n₁ := (Apart.of_addState _ _ _ n).trans (Apart.of_addState _ _ _ _)
  have w₂ : Apart N start stop n₁ (addEdge start (.silent N) n₁).2 :=
    Apart.of_addEdge (Or.inl rfl) (Or.inr le_rfl)
  have w₃ := w₁.trans (w₂.trans
    (Apart.of_addEdge (s := N) (e := .silent stop) (Or.inr le_rfl) (Or.inl rfl)))
  have inner := h (addEdge N (.silent stop) (addEdge start (.silent N) n₁).2).2 N (N + 1)
  have back {m : Nfa} : Apart N start stop m (addEdge (N + 1) (.silent N) m).2 :=
    Apart.of_addEdge (Or.inr (Nat.le_succ N)) (Or.inr le_rfl)
  exact w₃.trans ((inner.widen w₃.size_le (Or.inr le_rfl) (Or.inr (Nat.le_succ N))).trans back)

/-- Copies one after the other end where they start or at a new state. -/
theorem apart_wireCopies (k : Nat) : ∀ (n : Nfa) (start stop : StateId),
    Apart n.edges.size start stop n (wireCopies copy k start n).2 ∧
      ((wireCopies copy k start n).1 = start ∨ n.edges.size ≤ (wireCopies copy k start n).1) := by
  induction k with
  | zero => exact fun n start stop => ⟨Apart.refl _ _ _ n, Or.inl rfl⟩
  | succ k ih =>
    intro n start stop
    have first := h (addState n).2 start n.edges.size
    obtain ⟨rest, last⟩ := ih (copy start n.edges.size (addState n).2).2 n.edges.size stop
    refine ⟨Apart.through start stop first rest, Or.inr ?_⟩
    have size := (Apart.of_addState n.edges.size start stop n).size_le.trans first.size_le
    rcases last with last | last
    · exact last.ge
    · exact size.trans last

theorem apart_wireOptional (k : Nat) : ∀ (n : Nfa) (start stop : StateId),
    Apart n.edges.size start stop n (wireOptional copy stop k start n).2 := by
  induction k with
  | zero => exact fun n start stop => Apart.of_addEdge (Or.inl rfl) (Or.inl rfl)
  | succ k ih =>
    intro n start stop
    have new := Apart.of_addState n.edges.size start stop n
    have none : Apart n.edges.size start stop (addState n).2
        (addEdge start (.silent stop) (addState n).2).2 := Apart.of_addEdge (Or.inl rfl) (Or.inl rfl)
    have outer := new.trans none
    have first := h (addEdge start (.silent stop) (addState n).2).2 start n.edges.size
    have rest := ih (copy start n.edges.size (addEdge start (.silent stop) (addState n).2).2).2
      n.edges.size stop
    exact outer.trans ((first.widen outer.size_le (Or.inl rfl) (Or.inr le_rfl)).trans
      (rest.widen (outer.size_le.trans first.size_le) (Or.inr le_rfl) (Or.inl rfl)))

theorem isolates_wireRepetition (least : Nat) (most : Option Nat) :
    Isolates (wireRepetition copy least most) := by
  intro n start stop
  obtain ⟨copies, last⟩ := apart_wireCopies h least n start stop
  refine copies.trans ?_
  cases most with
  | none => exact (isolates_wireStar h _ _ stop).widen copies.size_le last (Or.inl rfl)
  | some most =>
    exact (apart_wireOptional h (most - least) _ _ stop).widen copies.size_le last (Or.inl rfl)

end

mutual

/-- Whatever is wired stays apart. -/
theorem apart_wire : ∀ (x : Expansion) (n : Nfa) (start stop : StateId),
    Apart n.edges.size start stop n (x.wire start stop n).2
  | .empty, n, start, stop => by
    rw [wire]
    exact Apart.of_addEdge (Or.inl rfl) (Or.inl rfl)
  | .literal bytes, n, start, stop => by
    rw [wire]
    exact apart_wireLiteral bytes n start stop
  | .charClass set, n, start, stop => by
    rw [wire]
    exact set.isolates_wire n start stop
  | .charClassStar set, n, start, stop => by
    rw [wire]
    exact isolates_wireStar set.isolates_wire n start stop
  | .call r, n, start, stop => by
    rw [wire]
    exact Apart.of_addEdge (Or.inl rfl) (Or.inl rfl)
  | .sequence items, n, start, stop => by
    rw [wire]
    exact apart_wireSequence items n start stop
  | .choice items, n, start, stop => by
    rw [wire]
    exact apart_wireChoice items n start stop
  | .repetition body least most, n, start, stop => by
    rw [wire]
    exact isolates_wireRepetition (fun n a b => apart_wire body n a b) least most n start stop

theorem apart_wireSequence : ∀ (xs : List Expansion) (n : Nfa) (start stop : StateId),
    Apart n.edges.size start stop n (wireSequence xs start stop n).2
  | [], n, start, stop => by
    rw [wireSequence]
    exact Apart.of_addEdge (Or.inl rfl) (Or.inl rfl)
  | [x], n, start, stop => by
    rw [wireSequence]
    exact apart_wire x n start stop
  | x :: y :: xs, n, start, stop => by
    rw [wireSequence]
    · exact Apart.through start stop (apart_wire x _ start n.edges.size)
        (apart_wireSequence (y :: xs) _ n.edges.size stop)
    · simp

theorem apart_wireChoice : ∀ (xs : List Expansion) (n : Nfa) (start stop : StateId),
    Apart n.edges.size start stop n (wireChoice xs start stop n).2
  | [], n, start, stop => by
    rw [wireChoice]
    exact Apart.refl _ _ _ n
  | x :: xs, n, start, stop => by
    rw [wireChoice]
    have first := apart_wire x n start stop
    exact first.trans ((apart_wireChoice xs _ start stop).widen first.size_le (Or.inl rfl)
      (Or.inl rfl))

end

end Expansion

end ConstrainedDecoding
