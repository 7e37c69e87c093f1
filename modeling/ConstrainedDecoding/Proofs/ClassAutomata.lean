import ConstrainedDecoding.Proofs.Encodings
import ConstrainedDecoding.Proofs.Wiring

/-!
# Automata of character classes

A class that is wired between two states of an automaton lets the UTF-8 forms of its characters be read
from one to the other, and adds nothing else to what the automaton reads. What is not the form of a
character is never read, so neither surrogates nor malformed byte strings are.
-/
namespace ConstrainedDecoding

open Nfa (Edge)

/-- The rules that an automaton calls have numbers below some number. -/
theorem Nfa.exists_inRange {n : Nfa} (hn : ∀ s, ∀ e ∈ n.edgesOf s, e.target < n.edges.size) :
    ∃ rules, n.InRange rules := by
  let called := n.edges.toList.flatten.filterMap fun e => e.call?.map Prod.fst
  refine ⟨called.sum + 1, hn, fun s r t he => Nat.lt_succ_of_le (List.le_sum_of_mem ?_)⟩
  have hs : s < n.edges.size := by
    by_contra hs
    simp [edgesOf, hs] at he
  refine List.mem_filterMap.2 ⟨.call r t, List.mem_flatten.2 ⟨n.edges[s], by simp, ?_⟩, rfl⟩
  simpa [edgesOf, Array.getD_eq_getD_getElem?, hs] using he

/-- The letters of the UTF-8 form of a character. -/
def Letter.form (c : Char) : List Letter := (String.utf8EncodeChar c).map Letter.byte

namespace CharClass

theorem mem_ofBytes_language {set : CharClass} {w : List Letter} :
    w ∈ Letter.ofBytes set.language ↔ ∃ c, set.Has c ∧ w = Letter.form c := by
  simp only [Letter.mem_ofBytes, mem_language, Letter.form]
  constructor
  · rintro ⟨_, ⟨c, hc, rfl⟩, rfl⟩
    exact ⟨c, hc, rfl⟩
  · rintro ⟨c, hc, rfl⟩
    exact ⟨_, ⟨c, hc, rfl⟩, rfl⟩

/-- The bytes of a form of a character are decoded to this character. -/
theorem decode?_of_form {c : Char} {bs : Bytes} (h : bs.map Letter.byte = Letter.form c) :
    Utf8.decode? bs = some [c] := by
  obtain rfl : bs = String.utf8EncodeChar c := List.map_injective_iff.2 (fun _ _ => Letter.byte.inj) h
  simpa using Utf8.decode?_encode [c]

/-- Wiring a class between two states of an automaton adds the UTF-8 forms of the characters of the
class, from one state to the other, to what the automaton reads between its states. If no edge leaves
the two states, just these forms are read between them: those of the characters in one of the ranges,
or in none of them if the class is negated. What does not decode to one character is not read. -/
theorem path_wire_iff (negated : Bool) (ranges : List (UInt32 × UInt32)) {n : Nfa}
    (hn : ∀ s, ∀ e ∈ n.edgesOf s, e.target < n.edges.size) {start stop : StateId}
    (hstart : start < n.edges.size) (hstop : stop < n.edges.size) :
    let set : CharClass := ⟨negated, ranges⟩
    let n' := (set.wire start stop n).2
    (∀ s t w, s < n.edges.size → t < n.edges.size →
      (n'.Path s w t ↔ n.PathWith start stop {w | ∃ c, set.Has c ∧ w = Letter.form c} s w t)) ∧
    (start ≠ stop → n.edgesOf start = [] → n.edgesOf stop = [] →
      (∀ w, n'.Path start w stop ↔ ∃ c : Char,
        ((∃ r ∈ ranges, r.1.toNat ≤ c.toNat ∧ c.toNat ≤ r.2.toNat) ↔ negated = false) ∧
          w = Letter.form c) ∧
      ∀ bs, n'.Path start (bs.map Letter.byte) stop → ∃ c, Utf8.decode? bs = some [c]) := by
  intro set n'
  obtain ⟨rules, hn⟩ := Nfa.exists_inRange hn
  have wired := set.wires_wire rules n start stop hstart hstop hn
  have forms : Letter.ofBytes set.language = {w | ∃ c, set.Has c ∧ w = Letter.form c} :=
    Set.ext fun w => mem_ofBytes_language
  rw [forms] at wired
  refine ⟨fun s t w hs ht => wired.path_iff hs ht, fun hne leaves leaves' => ?_⟩
  have between (w : List Letter) : n'.Path start w stop ↔ ∃ c, set.Has c ∧ w = Letter.form c :=
    (wired.path_iff hstart hstop).trans (Nfa.pathWith_iff_mem hne leaves leaves')
  refine ⟨between, fun bs hread => ?_⟩
  obtain ⟨c, -, hc⟩ := (between _).1 hread
  exact ⟨c, decode?_of_form hc⟩

/-- A class that leaves out all characters but those of ASCII, by ranges that are in no order, go beyond
the last code point, or are empty, reads ASCII letters and no surrogate. -/
theorem path_wire_ascii :
    let set : CharClass := ⟨true, [(0xE000, 0xFFFFFFFF), (0x5A, 0x41), (0x80, 0xD7FF)]⟩
    let n := (set.wire 0 1 Nfa.empty).2
    n.Path 0 [.byte 65] 1 ∧ ¬ n.Path 0 [.byte 0xED, .byte 0xA0, .byte 0x80] 1 := by
  intro set n
  obtain ⟨-, alone⟩ := path_wire_iff true set.ranges (n := Nfa.empty) (by simp)
    (by decide : 0 < Nfa.empty.edges.size) (by decide : 1 < Nfa.empty.edges.size)
  obtain ⟨reads, decodes⟩ := alone (by decide) rfl rfl
  refine ⟨(reads _).2 ⟨'A', by decide, by decide⟩, fun hread => ?_⟩
  obtain ⟨c, hc⟩ := decodes [0xED, 0xA0, 0x80] hread
  have stray : Utf8.next? [0xED, 0xA0, 0x80] = none := by decide
  rw [Utf8.decode?.eq_def] at hc
  split at hc
  · rename_i found
    simp [stray] at found
  · simp at hc

end CharClass

end ConstrainedDecoding
