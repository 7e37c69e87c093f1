import ConstrainedDecoding.Compiler.Basic
import ConstrainedDecoding.Proofs.Recognition
import ConstrainedDecoding.Proofs.ShownTexts

/-!
# What kept products are good for

A compiler that keeps its products answers what it would compile afresh, or else what it compiled
for another grammar with the same text. The text of a grammar does not tell which rule is the root,
so the two need not describe the same language.
-/
namespace ConstrainedDecoding.Compiler

/-! ## Calls -/

/-- What can be asked of a compiler. -/
inductive Call
  | compile (s : Source)
  | clear

/-- Does what is asked. -/
def call (c : Compiler) : Call → Compiler
  | .compile s => (c.compile s).2
  | .clear => c.clear

/-- A compiler after calls. -/
def run (c : Compiler) (calls : List Call) : Compiler := calls.foldl call c

/-- The sources that were compiled since a compiler was last cleared, after some others. -/
def recent (sources : List Source) (calls : List Call) : List Source :=
  calls.foldl (fun sources => fun
    | .compile s => s :: sources
    | .clear => []) sources

/-- What a compiler answers to a source, without the number of the call that made it. -/
def answer (c : Compiler) (s : Source) : Except Error Compiled := (c.compile s).1.map (·.compiled)

/-! ## Kept products -/

/-- Each kept product was compiled from one of some sources, and is kept under its key. -/
structure Filed (v : Vocabulary) (sources : List Source) (c : Compiler) : Prop where
  vocabulary : c.vocabulary = v
  entry : ∀ e ∈ c.entries, ∃ s ∈ sources, s.key = e.key ∧ s.compile v = .ok e.product.compiled

/-- Evicting drops entries from the front. -/
theorem evict_suffix (limit : Option Nat) (bytes : Nat) (entries : List Entry) :
    ∀ used, (evict limit bytes entries used).1 <:+ entries := by
  induction entries with
  | nil => exact fun _ => List.suffix_rfl
  | cons e rest ih =>
    intro used
    rw [evict]
    split
    · exact List.suffix_rfl
    · exact (ih _).trans (List.suffix_cons e rest)

/-- A kept product is put in front of the others that stay. -/
theorem entries_insert (c : Compiler) (key : Key) (p : Product) :
    ∃ kept, (c.insert key p).entries = ⟨key, p, p.compiled.memory⟩ :: kept ∧
      ∀ e ∈ kept, e ∈ c.entries := by
  refine ⟨_, rfl, fun e he => ?_⟩
  exact List.mem_reverse.1 ((evict_suffix _ _ _ _).mem (List.mem_reverse.1 he))

section

variable {v : Vocabulary} {sources : List Source} {c : Compiler}

theorem Filed.compile (h : Filed v sources c) (s : Source) : Filed v (s :: sources) (c.compile s).2 := by
  have older (e : Entry) (he : e ∈ c.entries) :
      ∃ s' ∈ s :: sources, s'.key = e.key ∧ s'.compile v = .ok e.product.compiled := by
    obtain ⟨s', hs', h'⟩ := h.entry e he
    exact ⟨s', List.mem_cons_of_mem s hs', h'⟩
  rw [Compiler.compile]
  split
  · rename_i e hfind
    refine ⟨h.vocabulary, fun e' he' => ?_⟩
    rcases List.mem_cons.1 he' with rfl | he'
    · exact older _ (List.mem_of_find?_eq_some hfind)
    · exact older _ (List.mem_of_mem_filter he')
  · split
    · exact ⟨h.vocabulary, older⟩
    · rename_i compiled hcompile
      rw [h.vocabulary] at hcompile
      simp only
      split
      · obtain ⟨kept, hentries, hkept⟩ := entries_insert { c with made := c.made + 1 } s.key
          ⟨c.made, compiled⟩
        refine ⟨h.vocabulary, ?_⟩
        rw [hentries]
        refine List.forall_mem_cons.2 ⟨⟨s, List.mem_cons_self, rfl, hcompile⟩, fun e he => ?_⟩
        exact older e (hkept e he)
      · exact ⟨h.vocabulary, older⟩

theorem Filed.run (calls : List Call) : ∀ {sources : List Source} {c : Compiler}, Filed v sources c →
    Filed v (recent sources calls) (c.run calls) := by
  induction calls with
  | nil => exact id
  | cons x calls ih =>
    intro sources c h
    cases x with
    | compile s => exact ih (h.compile s)
    | clear =>
      have cleared : Filed v [] c.clear := ⟨h.vocabulary, by simp [Compiler.clear]⟩
      exact ih cleared

/-- A compiler answers to a source what it is compiled to, or what some recent source with the same
key is compiled to. -/
theorem Filed.answer (h : Filed v sources c) (s : Source) : c.answer s = s.compile v ∨
    ∃ s' ∈ sources, s'.key = s.key ∧ c.answer s = s'.compile v := by
  rw [Compiler.answer, Compiler.compile]
  split
  · rename_i e hfind
    obtain ⟨s', hs', hkey, hcompile⟩ := h.entry e (List.mem_of_find?_eq_some hfind)
    have : e.key = s.key := by simpa using List.find?_some hfind
    exact Or.inr ⟨s', hs', hkey.trans this, hcompile.symm⟩
  · rw [h.vocabulary]
    cases hcompile : s.compile v with
    | error e => exact Or.inl rfl
    | ok compiled => exact Or.inl rfl

end

/-- Keys tell sources apart, but for grammars with the same text. -/
theorem Source.key_eq_iff {s s' : Source} : s.key = s'.key ↔ s = s' ∨
    ∃ g g' : Grammar, s = .grammar g ∧ s' = .grammar g' ∧ g.text = g'.text := by
  cases s with
  | grammar g =>
    cases s' <;> simp +contextual [Source.key, or_iff_right_of_imp]
  | schema options text =>
    cases s' <;> simp [Source.key, Schema.Options.shown_line_inj]
  | json => cases s' <;> simp [Source.key]
  | pattern text => cases s' <;> simp [Source.key]
  | tags text => cases s' <;> simp [Source.key]

/-- A compiler that has kept nothing answers what a source is compiled to. -/
theorem answer_new (v : Vocabulary) (keeps : Bool) (limit : Option Nat) (s : Source) :
    (new v keeps limit).answer s = s.compile v := by
  have h : Filed v [] (new v keeps limit) := ⟨rfl, by simp [new]⟩
  simpa using h.answer s

/-- Whatever was asked of a compiler before, it answers to a source what a compiler answers that keeps
nothing; or the source is a grammar, and it answers what a compiler that keeps nothing answers to
another grammar with the same text, which was compiled since the compiler was last cleared. -/
theorem answer_run_eq_or_shared (v : Vocabulary) (keeps : Bool) (limit : Option Nat)
    (calls : List Call) (s : Source) :
    let c := (new v keeps limit).run calls
    c.answer s = (new v false none).answer s ∨
    ∃ g g', s = .grammar g ∧ .grammar g' ∈ recent [] calls ∧ g'.text = g.text ∧
      c.answer s = (new v false none).answer (.grammar g') := by
  intro c
  have filed : Filed v (recent [] calls) c := Filed.run calls ⟨rfl, by simp [new]⟩
  rw [answer_new]
  rcases filed.answer s with heq | ⟨s', hs', hkey, heq⟩
  · exact Or.inl heq
  · rcases Source.key_eq_iff.1 hkey with rfl | ⟨g', g, rfl, rfl, htext⟩
    · exact Or.inl heq
    · exact Or.inr ⟨g, g', rfl, hs', htext, by rw [heq, answer_new]⟩

/-- What a compiler that keeps its products has just answered, it answers again to every source with the
same key. -/
theorem compile_compile {c : Compiler} (keeps : c.keeps = true) {s s' : Source} {p : Product}
    (h : (c.compile s).1 = .ok p) (hkey : s'.key = s.key) :
    ((c.compile s).2.compile s').1 = .ok p := by
  have first {c' : Compiler} {e : Entry} {kept : List Entry} (hentries : c'.entries = e :: kept)
      (he : e.key = s.key) : (c'.compile s').1 = .ok e.product := by
    rw [Compiler.compile, hkey]
    simp [hentries, he]
  revert h
  rw [Compiler.compile]
  split
  · rename_i e hfind
    rintro ⟨⟩
    exact first rfl (by simpa using List.find?_some hfind)
  · split
    · rintro ⟨⟩
    · rename_i compiled hcompile
      rintro ⟨⟩
      simp only [if_pos keeps]
      obtain ⟨kept, hentries, -⟩ := entries_insert { c with made := c.made + 1 } s.key
        ⟨c.made, compiled⟩
      exact first hentries rfl

/-! ## Grammars with the same text -/

/-- `a ::= "a"` and `b ::= "b"`, with either rule as the root. -/
def eitherRule (root : RuleId) : Grammar where
  rules := #[⟨"a", 0, none⟩, ⟨"b", 1, none⟩]
  exprs := #[.leaf (.literal [97]), .leaf (.literal [98])]
  root := root

/-- What a new matcher does with the text `b`, if one of the grammars compiles. -/
private theorem exists_of_trialOf {root : RuleId} {accepted : Bool}
    (h : (Matcher.trialOf (eitherRule root) Matcher.onlyX [98]).map (·.2.1) = some accepted) :
    ∃ c, Source.compile (.grammar (eitherRule root)) Matcher.onlyX = .ok c ∧ c.grammar.root = root ∧
      ((Matcher.new c .default 10).acceptBytes [98]).1 = accepted := by
  obtain ⟨trial, htrial, rfl⟩ := Option.map_eq_some_iff.1 h
  obtain ⟨c, hc, rfl⟩ := Option.map_eq_some_iff.1 htrial
  have hc := Except.toOption_eq_some.1 hc
  refine ⟨c, ?_, ?_, rfl⟩
  · simp [Source.compile, Source.toGrammar, bind, Except.bind, hc, Except.mapError]
  · obtain ⟨l, -, h⟩ := Except.bind_eq_ok.1 hc
    obtain ⟨ts, -, h⟩ := Except.bind_eq_ok.1 h
    obtain rfl := Except.ok.inj h
    rfl

/-- After it compiled the grammar with the root `a`, a compiler that keeps its products answers to the
grammar with the root `b` what was compiled for `a`. -/
theorem eitherRule_shared : ∃ kept fresh : Compiled,
    let c := (new Matcher.onlyX true none).run [.compile (.grammar (eitherRule 0))]
    c.answer (.grammar (eitherRule 1)) = .ok kept ∧
    (new Matcher.onlyX false none).answer (.grammar (eitherRule 1)) = .ok fresh ∧
    kept.grammar.root = 0 ∧ fresh.grammar.root = 1 ∧
    ((Matcher.new kept .default 10).acceptBytes [98]).1 = false ∧
    ((Matcher.new fresh .default 10).acceptBytes [98]).1 = true := by
  have trial : (Matcher.trialOf (eitherRule 0) Matcher.onlyX [98]).map (·.2.1) = some false ∧
      (Matcher.trialOf (eitherRule 1) Matcher.onlyX [98]).map (·.2.1) = some true := by
    decide +kernel
  obtain ⟨kept, hkept, keptRoot, rejected⟩ := exists_of_trialOf trial.1
  obtain ⟨fresh, hfresh, freshRoot, accepted⟩ := exists_of_trialOf trial.2
  refine ⟨kept, fresh, ?_, (answer_new ..).trans hfresh, keptRoot, freshRoot, rejected, accepted⟩
  have made : ((new Matcher.onlyX true none).compile (.grammar (eitherRule 0))).1 =
      .ok ⟨0, kept⟩ := by
    simp [Compiler.compile, hkept, new]
  -- the two grammars differ in their roots, which are not written
  have text : (eitherRule 1).text = (eitherRule 0).text := rfl
  have key : Source.key (.grammar (eitherRule 1)) = Source.key (.grammar (eitherRule 0)) :=
    congrArg (Key.mk .grammar) text
  exact congrArg (·.map (·.compiled)) (compile_compile rfl made key)

end ConstrainedDecoding.Compiler
