import ConstrainedDecoding.Grammar.FrontEnds
import ConstrainedDecoding.Proofs.Shapes

/-!
# Languages of texts

Leaves that can be written are texts or characters. So whatever a grammar text, a pattern or a
schema describes is the UTF-8 form of a text.
-/
namespace ConstrainedDecoding

/-- The UTF-8 forms of texts. -/
def Utf8.texts : Language UInt8 := {w | ∃ cs, w = encode cs}

namespace Utf8

variable {K K' : Language UInt8}

theorem one_le_texts : (1 : Language UInt8) ≤ texts := by
  rintro _ rfl
  exact ⟨[], rfl⟩

theorem mul_le_texts (h : K ≤ texts) (h' : K' ≤ texts) : K * K' ≤ texts := by
  rintro _ ⟨u, hu, v, hv, rfl⟩
  obtain ⟨cs, rfl⟩ := h hu
  obtain ⟨ds, rfl⟩ := h' hv
  exact ⟨cs ++ ds, by simp⟩

theorem pow_le_texts (h : K ≤ texts) (n : Nat) : K ^ n ≤ texts := by
  induction n with
  | zero => exact one_le_texts
  | succ n ih => exact mul_le_texts ih h

theorem copies_le_texts (h : K ≤ texts) (least : Nat) (most : Option Nat) :
    Language.copies K least most ≤ texts := by
  rintro w ⟨n, -, -, hw⟩
  exact pow_le_texts h n hw

end Utf8

theorem CharClass.language_le_texts (set : CharClass) : set.language ≤ Utf8.texts := by
  rintro _ ⟨c, -, rfl⟩
  exact ⟨[c], by simp⟩

theorem Leaf.Written.language_le_texts {l : Leaf} (h : l.Written) {L : Reading}
    (hL : ∀ r, L r ≤ Utf8.texts) : l.language L ≤ Utf8.texts := by
  cases l with
  | empty => exact Utf8.one_le_texts
  | literal bytes =>
    obtain ⟨text, -, rfl⟩ := h
    rintro _ rfl
    exact ⟨text.toList, rfl⟩
  | charClass set => exact set.language_le_texts
  | charClassStar set =>
    change KStar.kstar set.language ≤ _
    rw [Language.kstar_eq_copies]
    exact Utf8.copies_le_texts set.language_le_texts _ _
  | reference r => exact hL r
  | repetition r least most => exact Utf8.copies_le_texts (hL r) _ _

/-- A flat tree describes texts if the rules do. -/
theorem Tree.Flat.language_le_texts {role : Ebnf.Role} {t : Tree} (h : t.Flat role) {L : Reading}
    (hL : ∀ r, L r ≤ Utf8.texts) : t.language L ≤ Utf8.texts := by
  have sequence (ts : List Tree) (hts : ∀ t ∈ ts, t.language L ≤ Utf8.texts) :
      Tree.sequenceLanguage L ts ≤ Utf8.texts := by
    induction ts with
    | nil => simpa using Utf8.one_le_texts
    | cons t ts ih =>
      obtain ⟨ht, hts⟩ := List.forall_mem_cons.1 hts
      simpa using Utf8.mul_le_texts ht (ih hts)
  have choice (ts : List Tree) (hts : ∀ t ∈ ts, t.language L ≤ Utf8.texts) :
      Tree.choiceLanguage L ts ≤ Utf8.texts := by
    induction ts with
    | nil =>
      rw [Tree.choiceLanguage_nil]
      exact fun w hw => absurd hw (Language.notMem_zero w)
    | cons t ts ih =>
      obtain ⟨ht, hts⟩ := List.forall_mem_cons.1 hts
      rw [Tree.choiceLanguage_cons]
      rintro w (hw | hw)
      · exact ht hw
      · exact ih hts hw
  induction h with
  | leaf hl => simpa using hl.language_le_texts hL
  | group _ _ ih => exact ih
  | @sequence ts _ _ _ ih => simpa using sequence ts ih
  | @choice ts _ _ ih => simpa using choice ts ih

namespace Grammar

theorem Printable.language_le_texts {g : Grammar} (h : g.Printable) : g.language ≤ Utf8.texts := by
  refine reading_le (L := fun _ => Utf8.texts) (fun r t ht => ?_) g.root
  obtain ⟨rule, hrule, rfl⟩ := Option.map_eq_some_iff.1 ht
  exact (h.rules rule (Array.mem_of_getElem? hrule)).body.language_le_texts fun _ => le_rfl

/-! ## Front ends -/

theorem printable_of_ofEbnf {text root : String} {g : Grammar} (h : ofEbnf text root = .ok g) :
    g.Printable :=
  (printable_of_parse (Except.mapError_eq_ok.1 h)).1

theorem printable_of_ofPattern {pattern : String} {g : Grammar} (h : ofPattern pattern = .ok g) :
    g.Printable := by
  obtain ⟨text, -, h⟩ := Except.bind_eq_ok.1 h
  exact printable_of_ofEbnf h

theorem printable_of_ofSchema {schema : Json.Value} {o : Schema.Options} {g : Grammar}
    (h : ofSchema schema o = .ok g) : g.Printable := by
  obtain ⟨text, -, h⟩ := Except.bind_eq_ok.1 h
  exact (printable_of_parse (Except.mapError_eq_ok.1 h)).1

end Grammar
end ConstrainedDecoding
