import ConstrainedDecoding.Proofs.Recognition

/-!
# Raising the ceiling

Where rules may be nested more deeply, a matcher may all the same refuse a text that it accepted
before: of the ways to a state it goes on with the first one only, and this may be nested more
deeply than one that it takes if the first one is left out. But it refuses such a text only if it
leaves a rule out on the way, and never if rules may be nested deeply enough for the length of the
text.
-/
namespace ConstrainedDecoding.Matcher

open Compiled

variable {c : Compiled}

/-- What a new matcher that follows a stack accepts, and whether the text may end then. -/
theorem acceptBytes_new_stacked (h : c.isSingle = false) (o : Options) (usualDepth : Nat)
    (w : Bytes) : let m := new c o usualDepth
    ((m.acceptBytes w).1 = true ↔ Stack.Survives c m.ceiling [] w) ∧
    ((m.acceptBytes w).1 = true →
      (m.acceptBytes w).2.mayEnd = (Stack.levels c m.ceiling w).mayEnd) := by
  intro m
  have accept : m.acceptBytes w = m.read w := rfl
  have compiled : m.compiled = c := rfl
  have position : m.position = .stacked (Stack.levels c m.ceiling []) := by
    simp [m, new, startPosition, h, ceiling, Stack.levels]
  rw [accept, read_fst, mayEnd_read]
  simp only [advance, position, compiled]
  rcases Stack.advance_levels c m.ceiling [] w with ⟨survives, hread⟩ | ⟨dead, hread⟩
  · simp [hread, survives, mayEnd]
  · simp [hread, dead]

/-- What a new matcher at a state of a table accepts, and whether the text may end then, does not depend
on its options. -/
theorem acceptBytes_new_single (h : c.isSingle = true) (o o' : Options) (usualDepth usualDepth' : Nat)
    (w : Bytes) :
    ((new c o usualDepth).acceptBytes w).1 = ((new c o' usualDepth').acceptBytes w).1 ∧
    ((new c o usualDepth).acceptBytes w).2.mayEnd =
      ((new c o' usualDepth').acceptBytes w).2.mayEnd := by
  have accept (o : Options) (usualDepth : Nat) :
      (new c o usualDepth).acceptBytes w = (new c o usualDepth).read w := rfl
  have table (o : Options) (usualDepth : Nat) :
      (new c o usualDepth).rootTable = c.table c.root := rfl
  have position (o : Options) (usualDepth : Nat) : (new c o usualDepth).position = .single 0 [] := by
    simp [new, startPosition, h]
  simp only [accept, read_fst, mayEnd_read, advance, position, table]
  cases (c.table c.root).run? 0 w with
  | none => simp [mayEnd, position, table]
  | some s => exact ⟨rfl, rfl⟩

/-- A text that a new matcher accepts is accepted by every other one for the same grammar, however deeply
rules may be nested for either; and where the text may end for the former, it may end for the
latter. Else the latter leaves out a rule on the way, as it would be nested too deeply, and rules may
not be nested as deeply as the text is long, times the number of rules. -/
theorem acceptBytes_or_cutsOff {g : Grammar} {v : Vocabulary} (hg : g.Valid)
    (hc : compile g v = .ok c) (o o' : Options) (usualDepth usualDepth' : Nat) (w : Bytes)
    (haccept : ((new c o usualDepth).acceptBytes w).1 = true) :
    let m := ((new c o usualDepth).acceptBytes w).2
    let n := new c o' usualDepth'
    (n.acceptBytes w).1 = true ∧ (m.mayEnd = true → (n.acceptBytes w).2.mayEnd = true) ∨
    Stack.CutsOff c n.ceiling w ∧ n.ceiling ≤ c.lowered.rules.size * (w.length + 1) := by
  intro m n
  obtain ⟨regular, -, size, -⟩ := compile_spec hg hc
  cases hsingle : c.isSingle with
  | true =>
    obtain ⟨hsame, hend⟩ := acceptBytes_new_single hsingle o o' usualDepth usualDepth' w
    exact Or.inl ⟨hsame.symm.trans haccept, fun h => hend.symm.trans h⟩
  | false =>
    obtain ⟨reads, ends⟩ := acceptBytes_new_stacked hsingle o usualDepth w
    obtain ⟨reads', ends'⟩ := acceptBytes_new_stacked hsingle o' usualDepth' w
    by_cases cut : Stack.CutsOff c n.ceiling w
    · rw [← size]
      exact Or.inr ⟨cut, not_lt.1 fun hdepth => Stack.not_cutsOff regular hdepth cut⟩
    · have accepted : (n.acceptBytes w).1 = true :=
        reads'.2 (Stack.survives_of_survives regular cut (reads.1 haccept))
      refine Or.inl ⟨accepted, fun hend => ?_⟩
      rw [ends' accepted]
      exact Stack.ends_of_ends regular cut ((ends haccept).symm.trans hend)

/-! ## A text that is lost -/

/-- `root ::= a r`, `a ::= "-" | "-" r "y" | "+" a` and `r ::= "x" | "(" r ")"`. After `+-` the rule `r`
is called by `a`, which is nested, and then by the root, which is not. -/
def signed : Grammar where
  rules := #[⟨"root", 2, none⟩, ⟨"a", 11, none⟩, ⟨"r", 17, none⟩]
  exprs := #[.leaf (.reference 1), .leaf (.reference 2), .sequence [0, 1], .leaf (.literal [45]),
    .leaf (.literal [45]), .leaf (.reference 2), .leaf (.literal [121]), .sequence [4, 5, 6],
    .leaf (.literal [43]), .leaf (.reference 1), .sequence [8, 9], .choice [3, 7, 10],
    .leaf (.literal [120]), .leaf (.literal [40]), .leaf (.reference 2), .leaf (.literal [41]),
    .sequence [13, 14, 15], .choice [12, 16]]
  root := 0

theorem valid_signed : signed.Valid := by decide

/-- The default options with a ceiling on nested rules. -/
def Options.withDepth (depth : Nat) : Options := { Options.default with maxDepth := .set depth }

/-- What a new matcher of a grammar makes of a text, with a ceiling on nested rules: whether it accepts
the text, and whether the text may end then. -/
def trialAt (c : Compiled) (depth : Nat) (w : Bytes) : Bool × Bool :=
  let r := (new c (.withDepth depth) 10).acceptBytes w
  (r.1, r.2.mayEnd)

private theorem signed_trials : ∃ c, compile signed onlyX = .ok c ∧
    trialAt c 2 [43, 45, 40, 120, 41] = (true, true) ∧
    trialAt c 3 [43, 45, 40, 120, 41] = (false, false) := by
  have trials : ((compile signed onlyX).toOption.map fun c =>
      (trialAt c 2 [43, 45, 40, 120, 41], trialAt c 3 [43, 45, 40, 120, 41])) =
        some ((true, true), (false, false)) := by decide +kernel
  obtain ⟨c, hc, heq⟩ := Option.map_eq_some_iff.1 trials
  exact ⟨c, Except.toOption_eq_some.1 hc, Prod.mk.inj heq⟩

/-- A matcher accepts `+-(x)` if rules may be nested twice, but not if they may be nested three times. With
a third level, `r` is first called by the nested `a`, and is too deep then to call itself again; with
two levels, it is called by the root alone. -/
theorem signed_lost : ∃ c, compile signed onlyX = .ok c ∧
    ((new c (.withDepth 2) 10).acceptBytes [43, 45, 40, 120, 41]).1 = true ∧
    ((new c (.withDepth 2) 10).acceptBytes [43, 45, 40, 120, 41]).2.mayEnd = true ∧
    ((new c (.withDepth 3) 10).acceptBytes [43, 45, 40, 120, 41]).1 = false := by
  obtain ⟨c, hc, two, three⟩ := signed_trials
  exact ⟨c, hc, congrArg Prod.fst two, congrArg Prod.snd two, congrArg Prod.fst three⟩

/-- A rule is left out on the way if `+-(x)` is lost. -/
theorem signed_cutsOff : ∃ c, compile signed onlyX = .ok c ∧
    ((new c (.withDepth 2) 10).acceptBytes [43, 45, 40, 120, 41]).1 = true ∧
    Stack.CutsOff c 3 [43, 45, 40, 120, 41] := by
  obtain ⟨c, hc, two, three⟩ := signed_trials
  have accepted : ((new c (.withDepth 2) 10).acceptBytes [43, 45, 40, 120, 41]).1 = true :=
    congrArg Prod.fst two
  have refused : ((new c (.withDepth 3) 10).acceptBytes [43, 45, 40, 120, 41]).1 = false :=
    congrArg Prod.fst three
  refine ⟨c, hc, accepted, ?_⟩
  rcases acceptBytes_or_cutsOff valid_signed hc (.withDepth 2) (.withDepth 3) 10 10 _ accepted with
    ⟨again, -⟩ | ⟨cut, -⟩
  · exact absurd again (by simp [refused])
  · exact cut

end ConstrainedDecoding.Matcher
