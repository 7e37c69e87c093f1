import ConstrainedDecoding.Automaton.Wiring
import ConstrainedDecoding.Proofs.Expansion
import ConstrainedDecoding.Proofs.Utf8Paths

/-!
# What wired automata read

Wiring an expansion between two states adds paths for its words, and no others: what may be read
from each state before can be extended to the new states, as long as the words of the expansion
followed by what may be read from the second state may be read from the first.
-/
namespace ConstrainedDecoding

open Computability Letter

namespace Nfa

/-! ## Paths -/

/-- The state that an edge leads to. -/
def Edge.target : Edge → Nat
  | byte _ _ t | silent t | call _ t => t

/-- The words that an edge reads. -/
def Edge.words : Edge → Language Letter
  | byte lo hi _ => ofBytes (Utf8Paths.byteRange lo hi)
  | silent _ => 1
  | call r _ => {[Letter.call r]}

/-- A word can be read from one state to another. -/
inductive Path (n : Nfa) : StateId → List Letter → StateId → Prop
  | nil (s : StateId) : Path n s [] s
  | edge {s u : StateId} {e : Edge} {v w : List Letter} (he : e ∈ n.edgesOf s) (hv : v ∈ e.words)
      (rest : Path n e.target w u) : Path n s (v ++ w) u

theorem Path.trans {n : Nfa} {s t u : StateId} {v w : List Letter} (h : n.Path s v t)
    (h' : n.Path t w u) : n.Path s (v ++ w) u := by
  induction h with
  | nil s => exact h'
  | edge he hv _ ih =>
    rw [List.append_assoc]
    exact .edge he hv (ih h')

theorem Path.single {n : Nfa} {s : StateId} {e : Edge} {v : List Letter} (he : e ∈ n.edgesOf s)
    (hv : v ∈ e.words) : n.Path s v e.target := by
  simpa using Path.edge he hv (.nil e.target)

/-- What is given for each state has what the edges read before what is given for their targets. -/
def Closed (n : Nfa) (Res : StateId → Language Letter) : Prop :=
  ∀ s, ∀ e ∈ n.edgesOf s, e.words * Res e.target ≤ Res s

theorem Path.mem_closed {n : Nfa} {Res : StateId → Language Letter} (hRes : n.Closed Res)
    {s t : StateId} {v : List Letter} (h : n.Path s v t) :
    ∀ w ∈ Res t, v ++ w ∈ Res s := by
  induction h with
  | nil s => exact fun w hw => hw
  | edge he hv _ ih =>
    intro w hw
    rw [List.append_assoc]
    exact hRes _ _ he (Language.append_mem_mul hv (ih w hw))

/-- Edges lead to states of the automaton, and stand for rules below `rules`. -/
structure InRange (n : Nfa) (rules : Nat) : Prop where
  target_lt : ∀ s, ∀ e ∈ n.edgesOf s, e.target < n.edges.size
  call_lt : ∀ s r t, Edge.call r t ∈ n.edgesOf s → r < rules

/-- An automaton with further states and edges. -/
structure Extends (n n' : Nfa) : Prop where
  size_le : n.edges.size ≤ n'.edges.size
  edges : ∀ s, ∀ e ∈ n.edgesOf s, e ∈ n'.edgesOf s
  start : n'.start = n.start
  ends : n'.ends = n.ends

theorem Extends.refl (n : Nfa) : Extends n n := ⟨le_rfl, fun _ _ h => h, rfl, rfl⟩

theorem Extends.trans {n n' n'' : Nfa} (h : Extends n n') (h' : Extends n' n'') :
    Extends n n'' where
  size_le := h.size_le.trans h'.size_le
  edges s e he := h'.edges s e (h.edges s e he)
  start := h'.start.trans h.start
  ends := h'.ends.trans h.ends

theorem Path.of_extends {n n' : Nfa} (h : Extends n n') {s t : StateId} {w : List Letter}
    (hp : n.Path s w t) : n'.Path s w t := by
  induction hp with
  | nil s => exact .nil s
  | edge he hv _ ih => exact .edge (h.edges _ _ he) hv ih

/-- A word can be read from one state to another if each word of a language also leads from `start` to
`stop`. -/
inductive PathWith (n : Nfa) (start stop : StateId) (K : Language Letter) :
    StateId → List Letter → StateId → Prop
  | nil (s : StateId) : PathWith n start stop K s [] s
  | edge {s u : StateId} {e : Edge} {v w : List Letter} (he : e ∈ n.edgesOf s) (hv : v ∈ e.words)
      (rest : PathWith n start stop K e.target w u) : PathWith n start stop K s (v ++ w) u
  | jump {u : StateId} {v w : List Letter} (hv : v ∈ K) (rest : PathWith n start stop K stop w u) :
      PathWith n start stop K start (v ++ w) u

/-- Between two states without edges just the words of the language can be read. -/
theorem pathWith_iff_mem {n : Nfa} {start stop : StateId} {K : Language Letter} (hne : start ≠ stop)
    (hstart : n.edgesOf start = []) (hstop : n.edgesOf stop = []) {w : List Letter} :
    n.PathWith start stop K start w stop ↔ w ∈ K := by
  constructor
  · intro h
    cases h with
    | nil => exact absurd rfl hne
    | edge he => simp [hstart] at he
    | jump hv rest =>
      cases rest with
      | nil => rwa [List.append_nil]
      | edge he => simp [hstop] at he
      | jump => exact absurd rfl hne
  · exact fun h => List.append_nil w ▸ .jump h (.nil stop)

/-! ## States and edges -/

@[simp] theorem edgesOf_empty (s : StateId) : Nfa.empty.edgesOf s = [] := by
  match s with
  | 0 | 1 => rfl
  | s + 2 => rfl

theorem edgesOf_addState (n : Nfa) (s : StateId) : (addState n).2.edgesOf s = n.edgesOf s := by
  by_cases h : s < n.edges.size
  · simp [addState, edgesOf, Array.getD_eq_getD_getElem?, Array.getElem?_push, h, h.ne]
  · by_cases h' : s = n.edges.size
    · simp [addState, edgesOf, Array.getD_eq_getD_getElem?, h']
    · simp [addState, edgesOf, Array.getD_eq_getD_getElem?, Array.getElem?_push, h, h']

theorem size_addState (n : Nfa) : (addState n).2.edges.size = n.edges.size + 1 := by
  simp [addState]

theorem extends_addState (n : Nfa) : Extends n (addState n).2 :=
  ⟨by simp [addState], fun s e he => by rwa [edgesOf_addState], rfl, rfl⟩

theorem InRange.addState {n : Nfa} {rules : Nat} (h : n.InRange rules) :
    (addState n).2.InRange rules := by
  constructor
  · intro s e he
    rw [edgesOf_addState] at he
    rw [size_addState]
    exact (h.target_lt s e he).trans (Nat.lt_succ_self _)
  · intro s r t he
    rw [edgesOf_addState] at he
    exact h.call_lt s r t he

/-- What may be read from a new state can be chosen. -/
theorem Closed.addState {n : Nfa} {rules : Nat} (h : n.InRange rules)
    {Res : StateId → Language Letter} (hRes : n.Closed Res) (K : Language Letter) :
    (addState n).2.Closed (Function.update Res n.edges.size K) := by
  intro s e he
  rw [edgesOf_addState] at he
  have hs : s ≠ n.edges.size := by
    rintro rfl
    simp [edgesOf] at he
  rw [Function.update_of_ne (h.target_lt s e he).ne, Function.update_of_ne hs]
  exact hRes s e he

theorem edgesOf_addEdge {n : Nfa} {s : StateId} (hs : s < n.edges.size) (e : Edge) (s' : StateId) :
    (addEdge s e n).2.edgesOf s' = if s = s' then e :: n.edgesOf s' else n.edgesOf s' := by
  by_cases h : s = s'
  · subst h
    simp [addEdge, edgesOf, Array.getD_eq_getD_getElem?, Array.getElem_modify, hs]
  · simp [addEdge, edgesOf, Array.getD_eq_getD_getElem?, Array.getElem?_modify, h]

end Nfa

/-! ## Wiring -/

open Nfa

/-- An automaton has been extended so that the words of a language, and no others, can newly be read
from one state to another. -/
structure Wired (rules start stop : Nat) (K : Language Letter) (n n' : Nfa) : Prop where
  grows : Extends n n'
  inRange : n'.InRange rules
  complete : ∀ w ∈ K, n'.Path start w stop
  sound : ∀ Res, n.Closed Res → K * Res stop ≤ Res start →
    ∃ Res', (∀ s < n.edges.size, Res' s = Res s) ∧ n'.Closed Res'

/-- Between the states that there were, the extended automaton reads just what the automaton reads with
the words of the language. -/
theorem Wired.path_iff {rules start stop : Nat} {K : Language Letter} {n n' : Nfa}
    (h : Wired rules start stop K n n') {s t : StateId} (hs : s < n.edges.size)
    (ht : t < n.edges.size) {w : List Letter} : n'.Path s w t ↔ n.PathWith start stop K s w t := by
  constructor
  · intro hw
    obtain ⟨Res, hsame, hRes⟩ := h.sound (fun s => {w | n.PathWith start stop K s w t})
      (fun s e he => by rintro _ ⟨v, hv, w, hw, rfl⟩; exact .edge he hv hw)
      (by rintro _ ⟨v, hv, w, hw, rfl⟩; exact .jump hv hw)
    have read := hw.mem_closed hRes [] (by rw [hsame t ht]; exact .nil t)
    rw [List.append_nil, hsame s hs] at read
    exact read
  · intro hw
    clear hs ht
    induction hw with
    | nil s => exact .nil s
    | edge he hv _ ih => exact .edge (h.grows.edges _ _ he) hv ih
    | jump hv _ ih => exact (h.complete _ hv).trans ih

/-- An action wires a language between any two states. -/
def Wires (rules : Nat) (act : StateId → StateId → StateM Nfa Unit) (K : Language Letter) : Prop :=
  ∀ (n : Nfa) (start stop : Nat), start < n.edges.size → stop < n.edges.size →
    n.InRange rules → Wired rules start stop K n (act start stop n).2

theorem wired_addEdge {rules : Nat} {n : Nfa} {s : Nat} {e : Edge} (hn : n.InRange rules)
    (hs : s < n.edges.size) (ht : e.target < n.edges.size)
    (hr : ∀ r t, e = .call r t → r < rules) :
    Wired rules s e.target e.words n (addEdge s e n).2 where
  grows := by
    refine ⟨by simp [addEdge], fun s' e' he => ?_, rfl, rfl⟩
    rw [edgesOf_addEdge hs]
    split
    · exact List.mem_cons_of_mem _ he
    · exact he
  inRange := by
    constructor
    · intro s' e' he
      have size : (addEdge s e n).2.edges.size = n.edges.size := by simp [addEdge]
      rw [edgesOf_addEdge hs] at he
      rw [size]
      split at he
      · rcases List.mem_cons.1 he with rfl | he
        · exact ht
        · exact hn.target_lt _ _ he
      · exact hn.target_lt _ _ he
    · intro s' r t he
      rw [edgesOf_addEdge hs] at he
      split at he
      · rcases List.mem_cons.1 he with he | he
        · exact hr r t he.symm
        · exact hn.call_lt _ _ _ he
      · exact hn.call_lt _ _ _ he
  complete w hw := Path.single (by rw [edgesOf_addEdge hs, if_pos rfl]; simp) hw
  sound Res hRes hle := by
    refine ⟨Res, fun _ _ => rfl, fun s' e' he => ?_⟩
    rw [edgesOf_addEdge hs] at he
    split at he
    · rename_i heq
      subst heq
      rcases List.mem_cons.1 he with rfl | he
      · exact hle
      · exact hRes _ _ he
    · exact hRes _ _ he

section

variable {rules start stop : Nat} {n : Nfa}

theorem wired_silent (start stop : Nat) (hn : n.InRange rules) (hs : start < n.edges.size)
    (ht : stop < n.edges.size) : Wired rules start stop 1 n (addEdge start (.silent stop) n).2 :=
  wired_addEdge (e := .silent stop) hn hs ht (by simp)

theorem Wired.par {n₁ n₂ : Nfa} {K₁ K₂ : Language Letter} (hs : start < n.edges.size)
    (ht : stop < n.edges.size) (h₁ : Wired rules start stop K₁ n n₁)
    (h₂ : Wired rules start stop K₂ n₁ n₂) : Wired rules start stop (K₁ + K₂) n n₂ where
  grows := h₁.grows.trans h₂.grows
  inRange := h₂.inRange
  complete w hw := by
    rcases hw with hw | hw
    · exact (h₁.complete w hw).of_extends h₂.grows
    · exact h₂.complete w hw
  sound Res hRes hle := by
    rw [add_mul] at hle
    obtain ⟨Res₁, hsame₁, hRes₁⟩ := h₁.sound Res hRes (le_trans (fun w hw => Or.inl hw) hle)
    obtain ⟨Res₂, hsame₂, hRes₂⟩ := h₂.sound Res₁ hRes₁ (by
      rw [hsame₁ _ hs, hsame₁ _ ht]
      exact le_trans (fun w hw => Or.inr hw) hle)
    exact ⟨Res₂, fun s h => (hsame₂ s (h.trans_le h₁.grows.size_le)).trans (hsame₁ s h), hRes₂⟩

/-- One language after the other, through a new state. -/
theorem Wired.seq {n₁ n₂ : Nfa} {K₁ K₂ : Language Letter} (hn : n.InRange rules)
    (hs : start < n.edges.size) (ht : stop < n.edges.size)
    (h₁ : Wired rules start n.edges.size K₁ (addState n).2 n₁)
    (h₂ : Wired rules n.edges.size stop K₂ n₁ n₂) : Wired rules start stop (K₁ * K₂) n n₂ where
  grows := (extends_addState n).trans (h₁.grows.trans h₂.grows)
  inRange := h₂.inRange
  complete w hw := by
    obtain ⟨u, hu, v, hv, rfl⟩ := hw
    exact ((h₁.complete u hu).of_extends h₂.grows).trans (h₂.complete v hv)
  sound Res hRes hle := by
    have hlt := size_addState n
    have size := h₁.grows.size_le
    obtain ⟨Res₁, hsame₁, hRes₁⟩ := h₁.sound _ (hRes.addState hn (K₂ * Res stop)) (by
      rw [Function.update_self, Function.update_of_ne hs.ne, ← mul_assoc]
      exact hle)
    obtain ⟨Res₂, hsame₂, hRes₂⟩ := h₂.sound Res₁ hRes₁ (by
      rw [hsame₁ _ (by omega), hsame₁ _ (by omega), Function.update_self,
        Function.update_of_ne ht.ne])
    refine ⟨Res₂, fun s h => ?_, hRes₂⟩
    rw [hsame₂ s (by omega), hsame₁ s (by omega), Function.update_of_ne h.ne]

end

/-- An automaton has been extended so that the words of languages can newly be read between states, each
between two of its own. -/
structure WiredAll (rules : Nat) (jumps : List (Nat × Nat × Language Letter)) (n n' : Nfa) : Prop where
  grows : Extends n n'
  inRange : n'.InRange rules
  complete : ∀ s t K, (s, t, K) ∈ jumps → ∀ w ∈ K, n'.Path s w t
  sound : ∀ Res, n.Closed Res → (∀ s t K, (s, t, K) ∈ jumps → K * Res t ≤ Res s) →
    ∃ Res', (∀ s < n.edges.size, Res' s = Res s) ∧ n'.Closed Res'

theorem WiredAll.nil {rules : Nat} {n : Nfa} (hn : n.InRange rules) : WiredAll rules [] n n where
  grows := Extends.refl n
  inRange := hn
  complete := by simp
  sound Res hRes _ := ⟨Res, fun _ _ => rfl, hRes⟩

theorem WiredAll.wire {rules : Nat} {jumps : List (Nat × Nat × Language Letter)} {n n' : Nfa}
    {act : StateId → StateId → StateM Nfa Unit} {K : Language Letter} (h : WiredAll rules jumps n n')
    (hact : Wires rules act K) {s t : Nat} (hs : s < n.edges.size) (ht : t < n.edges.size) :
    WiredAll rules ((s, t, K) :: jumps) n (act s t n').2 := by
  have size := h.grows.size_le
  have h' := hact n' s t (hs.trans_le size) (ht.trans_le size) h.inRange
  refine ⟨h.grows.trans h'.grows, h'.inRange, fun s' t' K' hmem w hw => ?_, fun Res hRes hle => ?_⟩
  · rcases List.mem_cons.1 hmem with heq | hmem
    · obtain ⟨rfl, rfl, rfl⟩ : s' = s ∧ t' = t ∧ K' = K := by simpa using heq
      exact h'.complete w hw
    · exact (h.complete s' t' K' hmem w hw).of_extends h'.grows
  · obtain ⟨Res₁, hsame₁, hRes₁⟩ := h.sound Res hRes fun s t K hmem => hle s t K (List.mem_cons_of_mem _ hmem)
    obtain ⟨Res₂, hsame₂, hRes₂⟩ := h'.sound Res₁ hRes₁ (by
      rw [hsame₁ s hs, hsame₁ t ht]
      exact hle s t K List.mem_cons_self)
    exact ⟨Res₂, fun r hr => (hsame₂ r (hr.trans_le size)).trans (hsame₁ r hr), hRes₂⟩

theorem wires_silent {rules : Nat} : Wires rules (fun s t => addEdge s (.silent t)) 1 :=
  fun _ start stop hs ht hn => wired_silent start stop hn hs ht

/-! ## Characters -/

theorem ofBytes_byteRange_self (b : UInt8) :
    ofBytes (Utf8Paths.byteRange b b) = {[Letter.byte b]} := by
  ext w
  rw [mem_ofBytes]
  constructor
  · rintro ⟨_, ⟨x, hl, hh, rfl⟩, rfl⟩
    rw [UInt8.le_antisymm hh hl]
    rfl
  · rintro rfl
    exact ⟨[b], ⟨b, UInt8.le_refl b, UInt8.le_refl b, rfl⟩, rfl⟩

theorem ofBytes_zero : ofBytes 0 = 0 := map_zero (Language.map Letter.byte)

theorem ofBytes_mul (K K' : Language UInt8) : ofBytes (K * K') = ofBytes K * ofBytes K' :=
  map_mul (Language.map Letter.byte) K K'

theorem ofBytes_add (K K' : Language UInt8) : ofBytes (K + K') = ofBytes K + ofBytes K' :=
  map_add (Language.map Letter.byte) K K'

/-- Nothing new can be read. -/
theorem Wired.zero {rules start stop : Nat} {n : Nfa} (hn : n.InRange rules) :
    Wired rules start stop 0 n n where
  grows := Extends.refl n
  inRange := hn
  complete w hw := absurd hw (Language.notMem_zero w)
  sound Res hRes _ := ⟨Res, fun _ _ => rfl, hRes⟩

mutual

theorem Utf8Paths.wired_wire (rules : Nat) : ∀ (paths : Utf8Paths) (n : Nfa) (start stop : Nat),
    start < n.edges.size → stop < n.edges.size → n.InRange rules →
      Wired rules start stop (ofBytes paths.language) n (paths.wire start stop n).2
  | .last lo hi, n, start, stop, hs, ht, hn => by
    rw [Utf8Paths.wire, Utf8Paths.language]
    exact wired_addEdge (e := .byte lo hi stop) hn hs ht (by simp)
  | .branch branches, n, start, stop, hs, ht, hn => by
    rw [Utf8Paths.wire, Utf8Paths.language]
    exact Utf8Paths.wired_wireBranches rules branches n start stop hs ht hn

theorem Utf8Paths.wired_wireBranches (rules : Nat) :
    ∀ (branches : List ((UInt8 × UInt8) × Utf8Paths)) (n : Nfa) (start stop : Nat),
      start < n.edges.size → stop < n.edges.size → n.InRange rules →
        Wired rules start stop (ofBytes (Utf8Paths.branchesLanguage branches)) n
          (Utf8Paths.wireBranches start stop branches n).2
  | [], n, start, stop, hs, ht, hn => by
    rw [Utf8Paths.wireBranches, Utf8Paths.branchesLanguage, ofBytes_zero]
    exact Wired.zero hn
  | ((lo, hi), paths) :: rest, n, start, stop, hs, ht, hn => by
    rw [Utf8Paths.wireBranches, Utf8Paths.branchesLanguage, ofBytes_add, ofBytes_mul]
    have hlt := size_addState n
    have first := wired_addEdge (e := .byte lo hi n.edges.size) hn.addState (s := start)
      (by omega) (by simp only [Edge.target]; omega) (by simp)
    have size₁ := first.grows.size_le
    have second := Utf8Paths.wired_wire rules paths _ n.edges.size stop (by omega) (by omega)
      first.inRange
    have both := Wired.seq hn hs ht first second
    have size₂ := both.grows.size_le
    exact both.par hs ht (Utf8Paths.wired_wireBranches rules rest _ start stop (by omega) (by omega)
      both.inRange)

end

/-- The byte strings of some of several paths. -/
def Utf8Paths.someLanguage (pathss : List Utf8Paths) : Language UInt8 := {w | ∃ p ∈ pathss, w ∈ p.language}

theorem Utf8Paths.someLanguage_nil : someLanguage [] = 0 := by
  ext w
  simp only [someLanguage, List.not_mem_nil, false_and, exists_false, Language.notMem_zero]
  rfl

theorem Utf8Paths.someLanguage_cons (paths : Utf8Paths) (pathss : List Utf8Paths) :
    someLanguage (paths :: pathss) = paths.language + someLanguage pathss := by
  ext w
  exact List.exists_mem_cons_iff _ _ _

theorem Utf8Paths.wired_forM (rules : Nat) (pathss : List Utf8Paths) {start stop : Nat} :
    ∀ n : Nfa, start < n.edges.size → stop < n.edges.size → n.InRange rules →
      Wired rules start stop (ofBytes (someLanguage pathss)) n
        (pathss.forM (fun paths => paths.wire start stop) n).2 := by
  induction pathss with
  | nil =>
    intro n _ _ hn
    rw [someLanguage_nil, ofBytes_zero]
    exact Wired.zero hn
  | cons paths pathss ih =>
    intro n hs ht hn
    rw [someLanguage_cons, ofBytes_add]
    have first := Utf8Paths.wired_wire rules paths n start stop hs ht hn
    have size := first.grows.size_le
    exact first.par hs ht (ih _ (by omega) (by omega) first.inRange)

/-- The wiring of a class reads the characters of the class. -/
theorem CharClass.wires_wire (rules : Nat) (set : CharClass) :
    Wires rules set.wire (ofBytes set.language) := by
  have : set.language = Utf8Paths.someLanguage set.utf8Paths := by
    ext w
    exact CharClass.mem_utf8Paths.symm
  rw [this]
  exact fun n start stop hs ht hn => Utf8Paths.wired_forM rules set.utf8Paths n hs ht hn

namespace Expansion

/-! ## Copies -/

theorem wired_wireLiteral (rules : Nat) (bytes : Bytes) :
    ∀ (n : Nfa) (start stop : Nat), start < n.edges.size → stop < n.edges.size → n.InRange rules →
      Wired rules start stop {bytes.map Letter.byte} n (wireLiteral start stop bytes n).2 := by
  induction bytes with
  | nil => exact fun n start stop hs ht hn => wired_silent start stop hn hs ht
  | cons b bs ih =>
    intro n start stop hs ht hn
    cases bs with
    | nil =>
      rw [List.map_cons, List.map_nil, ← ofBytes_byteRange_self]
      exact wired_addEdge (e := .byte b b stop) hn hs ht (by simp)
    | cons c bs =>
      have hlt := size_addState n
      have first := wired_addEdge (e := .byte b b n.edges.size) hn.addState (s := start)
        (by omega) (by simp only [Edge.target]; omega) (by simp)
      have size := first.grows.size_le
      have both := Wired.seq hn hs ht first (ih _ n.edges.size stop (by omega) (by omega)
        first.inRange)
      have split : ({(b :: c :: bs).map Letter.byte} : Language Letter) =
          ofBytes (Utf8Paths.byteRange b b) * {(c :: bs).map Letter.byte} := by
        rw [ofBytes_byteRange_self]
        ext w
        constructor
        · rintro rfl
          exact ⟨_, rfl, _, rfl, rfl⟩
        · rintro ⟨_, rfl, _, rfl, rfl⟩
          rfl
      rw [split]
      exact both

section

variable {rules : Nat} {copy : StateId → StateId → StateM Nfa Unit} {K : Language Letter}

/-- What may be read from two new states can be chosen. -/
theorem exists_closed_addStates {n : Nfa} (hn : n.InRange rules) {Res : StateId → Language Letter}
    (hRes : n.Closed Res) (R : Language Letter) :
    ∃ Res', (∀ s < n.edges.size, Res' s = Res s) ∧ Res' n.edges.size = R ∧ Res' (n.edges.size + 1) = R ∧
      (addState (addState n).2).2.Closed Res' := by
  have := (hRes.addState hn R).addState hn.addState R
  rw [size_addState] at this
  refine ⟨_, fun s hs => ?_, ?_, ?_, this⟩
  · rw [Function.update_of_ne (Nat.ne_of_lt (by omega)), Function.update_of_ne (Nat.ne_of_lt hs)]
  · rw [Function.update_of_ne (Nat.ne_of_lt (by omega)), Function.update_self]
  · rw [Function.update_self]

/-- What leads back to a state does so any number of times. -/
theorem path_kstar {n : Nfa} {s : StateId} (h : ∀ w ∈ K, n.Path s w s) : ∀ w ∈ K∗, n.Path s w s := by
  have rounds (k : Nat) : ∀ w ∈ K ^ k, n.Path s w s := by
    induction k with
    | zero =>
      intro w hw
      obtain rfl : w = [] := by simpa using hw
      exact .nil _
    | succ k ih =>
      intro w hw
      rw [pow_succ', Language.mem_mul] at hw
      obtain ⟨u, hu, v, hv, rfl⟩ := hw
      exact (h u hu).trans (ih v hv)
  intro w hw
  rw [Language.kstar_eq_copies, Language.mem_copies] at hw
  obtain ⟨k, -, -, hw⟩ := hw
  exact rounds k w hw

/-- The hub reads any number of copies, on the way back to itself. -/
theorem wires_wireStar (h : Wires rules copy K) : Wires rules (wireStar copy) K∗ := by
  intro n start stop hs ht hn
  have hn₂ : (addState (addState n).2).2.InRange rules := hn.addState.addState
  have size₂ : (addState (addState n).2).2.edges.size = n.edges.size + 2 := by
    rw [size_addState, size_addState]
  have chosen (Res) (hRes : n.Closed Res) := exists_closed_addStates hn hRes (K∗ * Res stop)
  have old : Extends n (addState (addState n).2).2 :=
    (extends_addState n).trans (extends_addState _)
  have run : (wireStar copy start stop n).2 = (addEdge (n.edges.size + 1) (.silent n.edges.size)
      (copy n.edges.size (n.edges.size + 1) (addEdge n.edges.size (.silent stop)
        (addEdge start (.silent n.edges.size) (addState (addState n).2).2).2).2).2).2 := by
    rw [← size_addState]
    rfl
  rw [run]
  generalize (addState (addState n).2).2 = n₂ at *
  have all := ((((WiredAll.nil hn₂).wire wires_silent (show start < _ by omega) (show n.edges.size < _ by omega)).wire
    wires_silent (show n.edges.size < _ by omega) (show stop < _ by omega)).wire
      h (show n.edges.size < _ by omega) (show n.edges.size + 1 < _ by omega)).wire
        wires_silent (show n.edges.size + 1 < _ by omega) (show n.edges.size < _ by omega)
  refine ⟨old.trans all.grows, all.inRange, fun w hw => ?_, fun Res hRes hle => ?_⟩
  · have enter := all.complete start n.edges.size 1 (by simp) [] rfl
    have leave := all.complete n.edges.size stop 1 (by simp) [] rfl
    have back := all.complete (n.edges.size + 1) n.edges.size 1 (by simp) [] rfl
    have round : ∀ w ∈ K, Path _ n.edges.size w n.edges.size := fun w hw => by
      simpa using (all.complete n.edges.size (n.edges.size + 1) K (by simp) w hw).trans back
    simpa using enter.trans ((path_kstar round w hw).trans leave)
  · -- from the two new states any number of copies may be read, and then what follows
    obtain ⟨Res₂, hsame, hub, back, hRes₂⟩ := chosen Res hRes
    have star_one : Res stop ≤ K∗ * Res stop := by
      conv_lhs => rw [← one_mul (Res stop)]
      exact mul_le_mul_left (one_le_kstar) _
    have star_step : K * (K∗ * Res stop) ≤ K∗ * Res stop := by
      rw [← mul_assoc]
      exact mul_le_mul_left (mul_kstar_le_kstar) _
    obtain ⟨Res', hsame', hRes'⟩ := all.sound Res₂ hRes₂ fun s t K' hmem => by
      simp only [List.mem_cons, Prod.mk.injEq, List.not_mem_nil, or_false] at hmem
      rcases hmem with ⟨rfl, rfl, rfl⟩ | ⟨rfl, rfl, rfl⟩ | ⟨rfl, rfl, rfl⟩ | ⟨rfl, rfl, rfl⟩
      · rw [one_mul, hub, back]
      · rw [hub, back]
        exact star_step
      · rw [one_mul, hub, hsame _ ht]
        exact star_one
      · rw [one_mul, hub, hsame _ hs]
        exact hle
    exact ⟨Res', fun s hs => (hsame' s (by omega)).trans (hsame s hs), hRes'⟩

/-- Copies lead to a state from which all that may follow them can be read. -/
structure WiredCopies (rules start : Nat) (K : Language Letter) (n n' : Nfa) (last : Nat) :
    Prop where
  grows : Extends n n'
  inRange : n'.InRange rules
  last_lt : last < n'.edges.size
  complete : ∀ w ∈ K, n'.Path start w last
  sound : ∀ Res R, n.Closed Res → K * R ≤ Res start →
    ∃ Res', (∀ s < n.edges.size, Res' s = Res s) ∧ R ≤ Res' last ∧ n'.Closed Res'

theorem wiredCopies_wireCopies (h : Wires rules copy K) (k : Nat) :
    ∀ (n : Nfa) (start : Nat), start < n.edges.size → n.InRange rules →
      WiredCopies rules start (K ^ k) n (wireCopies copy k start n).2
        (wireCopies copy k start n).1 := by
  induction k with
  | zero =>
    intro n start hs hn
    refine ⟨Extends.refl n, hn, hs, fun w hw => ?_, fun Res R hRes hle =>
      ⟨Res, fun _ _ => rfl, ?_, hRes⟩⟩
    · obtain rfl : w = [] := by simpa using hw
      exact .nil _
    · rwa [pow_zero, one_mul] at hle
  | succ k ih =>
    intro n start hs hn
    have hlt := size_addState n
    have first := h (addState n).2 start n.edges.size (by omega) (by omega) hn.addState
    have size := first.grows.size_le
    have rest := ih (copy start n.edges.size (addState n).2).2 n.edges.size (by omega) first.inRange
    refine ⟨(extends_addState n).trans (first.grows.trans rest.grows), rest.inRange, rest.last_lt,
      fun w hw => ?_, fun Res R hRes hle => ?_⟩
    · rw [pow_succ', Language.mem_mul] at hw
      obtain ⟨u, hu, v, hv, rfl⟩ := hw
      exact ((first.complete u hu).of_extends rest.grows).trans (rest.complete v hv)
    · obtain ⟨Res₁, hsame₁, hRes₁⟩ := first.sound _ (hRes.addState hn (K ^ k * R)) (by
        rw [Function.update_self, Function.update_of_ne hs.ne, ← mul_assoc, ← pow_succ']
        exact hle)
      obtain ⟨Res₂, hsame₂, hlast, hRes₂⟩ := rest.sound Res₁ R hRes₁ (by
        rw [hsame₁ _ (by omega), Function.update_self])
      refine ⟨Res₂, fun s hs => ?_, hlast, hRes₂⟩
      rw [hsame₂ s (by omega), hsame₁ s (by omega), Function.update_of_ne hs.ne]

theorem wired_wireOptional (h : Wires rules copy K) (k : Nat) :
    ∀ (n : Nfa) (start stop : Nat), start < n.edges.size → stop < n.edges.size → n.InRange rules →
      Wired rules start stop (Language.copies K 0 (some k)) n
        (wireOptional copy stop k start n).2 := by
  induction k with
  | zero =>
    intro n start stop hs ht hn
    rw [Language.copies_zero]
    exact wired_silent start stop hn hs ht
  | succ k ih =>
    intro n start stop hs ht hn
    have hlt := size_addState n
    have none := wired_silent start stop hn.addState (by omega) (by omega)
    have size₁ := none.grows.size_le
    have first := h _ start n.edges.size (by omega) (by omega) none.inRange
    have size₂ := first.grows.size_le
    have rest := ih _ n.edges.size stop (by omega) (by omega) first.inRange
    rw [Language.copies_succ]
    refine ⟨(extends_addState n).trans (none.grows.trans (first.grows.trans rest.grows)),
      rest.inRange, fun w hw => ?_, fun Res hRes hle => ?_⟩
    · rcases hw with hw | ⟨u, hu, v, hv, rfl⟩
      · exact (none.complete w hw).of_extends (first.grows.trans rest.grows)
      · exact ((first.complete u hu).of_extends rest.grows).trans (rest.complete v hv)
    · rw [add_mul, mul_assoc] at hle
      obtain ⟨Res₁, hsame₁, hRes₁⟩ := none.sound _
        (hRes.addState hn (Language.copies K 0 (some k) * Res stop)) (by
          rw [Function.update_of_ne hs.ne, Function.update_of_ne ht.ne]
          exact le_trans (fun w hw => Or.inl hw) hle)
      obtain ⟨Res₂, hsame₂, hRes₂⟩ := first.sound Res₁ hRes₁ (by
        rw [hsame₁ _ (by omega), hsame₁ _ (by omega), Function.update_self,
          Function.update_of_ne hs.ne]
        exact le_trans (fun w hw => Or.inr hw) hle)
      obtain ⟨Res₃, hsame₃, hRes₃⟩ := rest.sound Res₂ hRes₂ (by
        rw [hsame₂ _ (by omega), hsame₂ _ (by omega), hsame₁ _ (by omega), hsame₁ _ (by omega),
          Function.update_self, Function.update_of_ne ht.ne])
      refine ⟨Res₃, fun s hs => ?_, hRes₃⟩
      rw [hsame₃ s (by omega), hsame₂ s (by omega), hsame₁ s (by omega),
        Function.update_of_ne hs.ne]

theorem WiredCopies.seq {n n₁ n₂ : Nfa} {start stop last : Nat} {K₁ K₂ : Language Letter}
    (ht : stop < n.edges.size) (h₁ : WiredCopies rules start K₁ n n₁ last)
    (h₂ : Wired rules last stop K₂ n₁ n₂) : Wired rules start stop (K₁ * K₂) n n₂ where
  grows := h₁.grows.trans h₂.grows
  inRange := h₂.inRange
  complete w hw := by
    obtain ⟨u, hu, v, hv, rfl⟩ := hw
    exact ((h₁.complete u hu).of_extends h₂.grows).trans (h₂.complete v hv)
  sound Res hRes hle := by
    rw [mul_assoc] at hle
    obtain ⟨Res₁, hsame₁, hlast, hRes₁⟩ := h₁.sound Res _ hRes hle
    obtain ⟨Res₂, hsame₂, hRes₂⟩ := h₂.sound Res₁ hRes₁ (by
      rw [hsame₁ _ ht]
      exact hlast)
    exact ⟨Res₂, fun s h => (hsame₂ s (h.trans_le h₁.grows.size_le)).trans (hsame₁ s h), hRes₂⟩

theorem wires_wireRepetition (h : Wires rules copy K) (least : Nat) (most : Option Nat)
    (hle : ∀ m ∈ most, least ≤ m) :
    Wires rules (wireRepetition copy least most) (Language.copies K least most) := by
  intro n start stop hs ht hn
  have copies := wiredCopies_wireCopies h least n start hs hn
  have ht' := ht.trans_le copies.grows.size_le
  rw [← Language.pow_mul_copies K least most hle]
  refine copies.seq ht ?_
  cases most with
  | none =>
    rw [Option.map_none, ← Language.kstar_eq_copies]
    exact wires_wireStar h _ _ stop copies.last_lt ht' copies.inRange
  | some most =>
    exact wired_wireOptional h (most - least) _ _ stop copies.last_lt ht' copies.inRange

end

/-! ## Expansions -/

mutual

/-- The wiring of an expansion reads its words. -/
theorem wired_wire {rules : Nat} : ∀ x : Expansion, x.Fits rules →
    ∀ (n : Nfa) (start stop : Nat), start < n.edges.size → stop < n.edges.size → n.InRange rules →
      Wired rules start stop x.words n (x.wire start stop n).2
  | .empty, _, n, start, stop, hs, ht, hn => by
    rw [wire, words]
    exact wired_silent start stop hn hs ht
  | .literal bytes, _, n, start, stop, hs, ht, hn => by
    rw [wire, words]
    exact wired_wireLiteral rules bytes n start stop hs ht hn
  | .charClass set, _, n, start, stop, hs, ht, hn => by
    rw [wire, words]
    exact CharClass.wires_wire rules set n start stop hs ht hn
  | .charClassStar set, _, n, start, stop, hs, ht, hn => by
    rw [wire, words]
    exact wires_wireStar (CharClass.wires_wire rules set) n start stop hs ht hn
  | .call r, hx, n, start, stop, hs, ht, hn => by
    rw [wire, words]
    exact wired_addEdge (e := .call r stop) hn hs ht fun r' t h => by
      obtain ⟨rfl, -⟩ := Edge.call.inj h
      exact hx
  | .sequence items, hx, n, start, stop, hs, ht, hn => by
    rw [wire, words]
    exact wired_wireSequence items hx n start stop hs ht hn
  | .choice items, hx, n, start, stop, hs, ht, hn => by
    rw [wire, words]
    exact wired_wireChoice items hx n start stop hs ht hn
  | .repetition body least most, hx, n, start, stop, hs, ht, hn => by
    rw [wire, words]
    have h : Wires rules (fun a b => body.wire a b) body.words := wired_wire body hx.1
    exact wires_wireRepetition h least most hx.2 n start stop hs ht hn

theorem wired_wireSequence {rules : Nat} : ∀ xs : List Expansion, AllFit rules xs →
    ∀ (n : Nfa) (start stop : Nat), start < n.edges.size → stop < n.edges.size → n.InRange rules →
      Wired rules start stop (sequenceWords xs) n (wireSequence xs start stop n).2
  | [], _, n, start, stop, hs, ht, hn => by
    rw [wireSequence, sequenceWords]
    exact wired_silent start stop hn hs ht
  | [x], hx, n, start, stop, hs, ht, hn => by
    rw [wireSequence, sequenceWords, sequenceWords, mul_one]
    exact wired_wire x hx.1 n start stop hs ht hn
  | x :: y :: xs, hx, n, start, stop, hs, ht, hn => by
    rw [wireSequence, sequenceWords]
    · have hlt := size_addState n
      have first := wired_wire x hx.1 (addState n).2 start n.edges.size (by omega) (by omega)
        hn.addState
      have size := first.grows.size_le
      exact first.seq hn hs ht (wired_wireSequence (y :: xs) hx.2 _ n.edges.size stop (by omega)
        (by omega) first.inRange)
    · simp

theorem wired_wireChoice {rules : Nat} : ∀ xs : List Expansion, AllFit rules xs →
    ∀ (n : Nfa) (start stop : Nat), start < n.edges.size → stop < n.edges.size → n.InRange rules →
      Wired rules start stop (choiceWords xs) n (wireChoice xs start stop n).2
  | [], _, n, start, stop, hs, ht, hn => by
    rw [wireChoice, choiceWords]
    exact Wired.zero hn
  | x :: xs, hx, n, start, stop, hs, ht, hn => by
    rw [wireChoice, choiceWords]
    have first := wired_wire x hx.1 n start stop hs ht hn
    have size := first.grows.size_le
    exact first.par hs ht (wired_wireChoice xs hx.2 _ start stop (by omega) (by omega)
      first.inRange)

end

/-- The automaton of an expansion reads the words of the expansion, and its numbers are in range. -/
theorem nfa_spec {rules : Nat} {x : Expansion} (hx : x.Fits rules) :
    x.nfa.InRange rules ∧ x.nfa.start = 0 ∧ x.nfa.ends = [1] ∧ 2 ≤ x.nfa.edges.size ∧
      ∀ w, x.nfa.Path 0 w 1 ↔ w ∈ x.words := by
  have hempty : Nfa.empty.InRange rules := ⟨by simp, by simp⟩
  have wired := wired_wire x hx Nfa.empty 0 1 (by decide) (by decide) hempty
  refine ⟨wired.inRange, wired.grows.start, wired.grows.ends, wired.grows.size_le, fun w => ?_⟩
  exact (wired.path_iff (by decide) (by decide)).trans
    (pathWith_iff_mem Nat.zero_ne_one (edgesOf_empty 0) (edgesOf_empty 1))

end Expansion

end ConstrainedDecoding
