import ConstrainedDecoding.Proofs.Agreement
import ConstrainedDecoding.Proofs.Parsing

/-!
# What matchers accept

A new matcher accepts a text and may end after it if and only if the text belongs to the language of
the grammar that was compiled, whether a table or a stack follows the text.
-/
namespace ConstrainedDecoding

open Letter

namespace Table

variable {t : Table}

theorem callsOf_of_isCallFree (h : t.isCallFree = true) (s : StateId) : t.callsOf s = [] := by
  unfold isCallFree at h
  rw [callsOf, Array.getD_eq_getD_getElem?]
  cases hs : t.calls[s]? with
  | none => rfl
  | some calls => simpa using (Array.all_eq_true_iff_forall_mem.1 h) calls (Array.mem_of_getElem? hs)

/-- Reading bytes leads to where the word of these letters leads. -/
theorem accepts_bytes_iff (bs : Bytes) : ∀ s, t.Accepts s (bs.map byte) ↔
    ∃ s', t.run? s bs = some s' ∧ t.accepts s' = true := by
  induction bs with
  | nil => intro s; simp [Accepts, run?]
  | cons b bs ih =>
    intro s
    rw [List.map_cons, Accepts, run?]
    cases t.next? s b with
    | none => simp
    | some s' => simpa using ih s'

/-- A table without calls accepts words of bytes only. -/
theorem exists_bytes (h : t.isCallFree = true) (w : List Letter) : ∀ s, t.Accepts s w →
    ∃ bs : Bytes, w = bs.map byte := by
  induction w with
  | nil => exact fun s _ => ⟨[], rfl⟩
  | cons a w ih =>
    intro s hw
    cases a with
    | byte b =>
      obtain ⟨s', -, hw⟩ := hw
      obtain ⟨bs, rfl⟩ := ih s' hw
      exact ⟨b :: bs, rfl⟩
    | call r =>
      obtain ⟨s', hs', -⟩ := hw
      simp [callsOf_of_isCallFree h] at hs'

end Table

namespace Compiled

variable {c : Compiled}

/-- If the root rule calls no other, its table alone tells its texts. -/
theorem run?_start_iff (h : c.isSingle = true) (w : Bytes) :
    (∃ s, (c.table c.root).run? 0 w = some s ∧ (c.table c.root).accepts s = true) ↔
      w ∈ c.network.reading c.root := by
  rw [← Table.accepts_bytes_iff, Network.reading_eq]
  constructor
  · intro accepts
    exact ⟨w.map byte, accepts, by rw [wordLanguage_map_byte]; rfl⟩
  · rintro ⟨word, accepts, hw⟩
    obtain ⟨bs, rfl⟩ := Table.exists_bytes h word 0 accepts
    rw [wordLanguage_map_byte] at hw
    obtain rfl : w = bs := hw
    exact accepts

end Compiled

namespace Matcher

open Compiled

/-- A new matcher accepts a text as a whole, and may end then, if and only if the text belongs to the
language of the grammar. Rules have to be allowed to be nested as deeply as the text is long, times
the number of rules. -/
theorem acceptBytes_iff_mem_language {g : Grammar} {v : Vocabulary} {c : Compiled} (hg : g.Valid)
    (hc : compile g v = .ok c) (o : Options) (usualDepth : Nat) (w : Bytes)
    (hdepth : c.lowered.rules.size * (w.length + 1) < o.maxDepth.getD usualDepth)
    (hdeepest : c.lowered.rules.size * (w.length + 1) < deepest) :
    (∃ m, (Matcher.new c o usualDepth).acceptBytes w = (true, m) ∧ m.mayEnd = true) ↔
      w ∈ g.language := by
  obtain ⟨regular, hlang, size, -⟩ := compile_spec hg hc
  rw [← hlang]
  set m₀ := Matcher.new c o usualDepth with hm₀
  have accept : (∃ m, m₀.acceptBytes w = (true, m) ∧ m.mayEnd = true) ↔
      ∃ m, m₀.advance w = (true, m) ∧ m.mayEnd = true := by
    rw [acceptBytes, if_neg (show ¬ m₀.stopped = true by simp [hm₀, Matcher.new]), read]
    cases m₀.advance w with
    | mk done m => cases done <;> simp [(agree_record m _).mayEnd]
  rw [accept]
  by_cases h : c.isSingle = true
  · rw [← run?_start_iff h]
    have position : m₀.position = .single 0 [] := by simp [hm₀, Matcher.new, startPosition, h]
    rw [advance, position]
    simp only [show m₀.rootTable = c.table c.root from rfl]
    cases (c.table c.root).run? 0 w with
    | none => simp
    | some s => simp [mayEnd, rootTable, hm₀, Matcher.new]
  · have ceiling : c.tables.size * (w.length + 1) < m₀.ceiling := by
      rw [size]
      exact Nat.lt_min.2 ⟨hdepth, hdeepest⟩
    have position : m₀.position = .stacked (Stack.start c m₀.ceiling) := by
      simp [hm₀, Matcher.new, startPosition, h, Matcher.ceiling]
    rw [← Stack.advance_start_iff regular ceiling, advance, position]
    simp only [show m₀.compiled = c from rfl]
    cases Stack.advance c m₀.ceiling (Stack.start c m₀.ceiling) w with
    | mk done stack => simp [mayEnd]

/-- `root ::= root "x" | ""`, which is left-recursive and nullable. -/
def repeatedX : Grammar where
  rules := #[⟨"root", 4, none⟩]
  exprs := #[.leaf (.reference 0), .leaf (.literal [120]), .sequence [0, 1], .leaf .empty,
    .choice [2, 3]]
  root := 0

theorem valid_repeatedX : repeatedX.Valid := by decide

/-- The vocabulary of the token `x`. -/
def onlyX : Vocabulary := ⟨.raw, 1, false, #["x"], #[[120]], [], #[], #[0], #[1]⟩

/-- Whether a new matcher accepts a text and may end then, and how many rules it has tables for. -/
def trialOf (g : Grammar) (v : Vocabulary) (w : Bytes) : Option (Nat × Bool × Bool) :=
  (compile g v).toOption.map fun c =>
    let r := (Matcher.new c .default 10).acceptBytes w
    (c.lowered.rules.size, r.1, r.2.mayEnd)

theorem xx_mem_language_repeatedX : [120, 120] ∈ repeatedX.language := by
  have trial : trialOf repeatedX onlyX [120, 120] = some (1, true, true) := by decide +kernel
  obtain ⟨c, hc, heq⟩ := Option.map_eq_some_iff.1 trial
  simp only [Prod.mk.injEq] at heq
  obtain ⟨hsize, haccept, hend⟩ := heq
  have hc : compile repeatedX onlyX = .ok c := by
    cases h : compile repeatedX onlyX <;> simp_all [Except.toOption]
  refine (acceptBytes_iff_mem_language valid_repeatedX hc .default 10 [120, 120] ?_ ?_).1
    ⟨_, Prod.ext haccept rfl, hend⟩
  · rw [hsize]
    decide
  · rw [hsize]
    decide

end Matcher

end ConstrainedDecoding
