import ConstrainedDecoding.Proofs.Agreement
import ConstrainedDecoding.Proofs.Growth
import Mathlib.Data.List.Basic
import Mathlib.Tactic.SplitIfs

/-!
# Taking back and replaying

Whatever is asked of a matcher, it stands where a new matcher stands after the inputs that were
accepted and not taken back. The proof follows a matcher that forgets nothing: the matcher that
forgets is what is left of it when only the last entries are kept. What is refused, and what is only
asked, leaves a matcher as it was.
-/
namespace ConstrainedDecoding.Matcher

/-! ## Calls -/

/-- What a matcher can accept. -/
inductive Input
  | token (id : Nat)
  | bytes (bytes : Bytes)
  | text (text : String)

/-- Accepts an input, and says whether it did. -/
def accept (m : Matcher) : Input → Bool × Matcher
  | .token id => m.acceptToken id
  | .bytes bytes => m.acceptBytes bytes
  | .text text => m.acceptText text

/-- What can be asked of a matcher. -/
inductive Call
  | accept (input : Input)
  | fill (buffer : Bitmask) (batch : Nat)
  | jump
  | rollback (n : Nat)
  | reset

/-- Does what is asked, and says whether it was done. -/
def call (m : Matcher) : Call → Bool × Matcher
  | .accept input => m.accept input
  | .fill buffer batch => ((m.fill buffer batch).1.isSome, (m.fill buffer batch).2)
  | .jump => (true, m.jump.2)
  | .rollback n => m.rollback n
  | .reset => (true, m.reset)

/-- What calls come to. -/
structure Log where
  /-- The inputs that were accepted since the last reset and not taken back, the last one first. -/
  net : List Input
  /-- How many of them are recorded. -/
  recorded : Nat

/-- The log after a call. Each input that is accepted is recorded, and the oldest one is dropped
beyond the horizon. -/
def Log.after (horizon : Nat) (log : Log) : Call → (done : Bool) → Log
  | .accept input, true => ⟨input :: log.net, min (log.recorded + 1) horizon⟩
  | .rollback n, true => ⟨log.net.drop n, log.recorded - n⟩
  | .reset, true => ⟨[], 0⟩
  | _, _ => log

/-- A matcher and its log after calls. -/
def run (m : Matcher) (log : Log) : List Call → Matcher × Log
  | [] => (m, log)
  | c :: calls => run (m.call c).2 (log.after m.horizon c (m.call c).1) calls

/-- Replays inputs, of which the last one comes first. -/
def replay (m : Matcher) : List Input → Option Matcher
  | [] => some m
  | input :: net => (replay m net).bind fun m => done? (m.accept input)

/-! ## What is left of a history -/

def Entry.isBytes : Entry → Bool
  | .stop => false
  | .bytes _ => true

/-- How many entries of a history are texts. -/
def texts (history : List Entry) : Nat := history.countP Entry.isBytes

@[simp] theorem texts_stop (history : List Entry) : texts (.stop :: history) = texts history := rfl

@[simp] theorem texts_bytes (n : Nat) (history : List Entry) :
    texts (.bytes n :: history) = texts history + 1 :=
  List.countP_cons_of_pos rfl

theorem texts_take_le (history : List Entry) {a b : Nat} (h : a ≤ b) :
    texts (history.take a) ≤ texts (history.take b) :=
  (List.take_prefix_take_left h).sublist.countP_le

/-- A position with the states before the last `n` texts. -/
def Position.keep (n : Nat) : Position → Position
  | .single s before => .single s (before.take n)
  | .stacked stack => .stacked stack

/-- What is left of a matcher when the last `k` entries are kept. -/
def keep (k : Nat) (m : Matcher) : Matcher :=
  { m with
    history := m.history.take k
    position := m.position.keep (texts (m.history.take k)) }

/-- At a state of a table there is a recorded state for each text of the history. -/
def Aligned (m : Matcher) : Prop :=
  match m.position with
  | .single _ before => before.length = texts m.history
  | .stacked _ => True

section

variable {m : Matcher}

theorem Aligned.keep (h : m.Aligned) (k : Nat) : (m.keep k).Aligned := by
  unfold Aligned at *
  cases hm : m.position with
  | stacked stack => simp [Matcher.keep, hm, Position.keep]
  | single s before =>
    rw [hm] at h
    have le : texts (m.history.take k) ≤ before.length := by
      rw [h]
      exact (List.take_sublist k m.history).countP_le
    simpa [Matcher.keep, hm, Position.keep] using Nat.min_eq_left le

theorem keep_keep (a b : Nat) (m : Matcher) : (m.keep a).keep b = m.keep (min b a) := by
  have : texts (m.history.take (min b a)) ≤ texts (m.history.take a) :=
    texts_take_le _ (Nat.min_le_right b a)
  cases hm : m.position <;> simp [keep, hm, Position.keep, List.take_take, Nat.min_eq_left this]

theorem keep_length (h : m.Aligned) : m.keep m.history.length = m := by
  obtain ⟨compiled, stopIds, endsAlone, horizon, maxDepth, position, history, stopped⟩ := m
  cases position with
  | stacked stack => simp [keep, Position.keep]
  | single s before =>
    have h : before.length = texts history := h
    simp [keep, Position.keep, ← h]

theorem forgetOldest_eq_keep (h : m.Aligned) : m.forgetOldest = m.keep (m.history.length - 1) := by
  obtain ⟨compiled, stopIds, endsAlone, horizon, maxDepth, position, history, stopped⟩ := m
  rcases List.eq_nil_or_concat' history with rfl | ⟨older, e, rfl⟩
  · cases position with
    | stacked stack => simp [forgetOldest, keep, Position.keep]
    | single s before =>
      obtain rfl : before = [] := List.length_eq_zero_iff.1 h
      simp [forgetOldest, keep, Position.keep]
  · cases position with
    | stacked stack => cases e <;> simp [forgetOldest, keep, Position.keep]
    | single s before =>
      have h : before.length = texts (older ++ [e]) := h
      cases e with
      | stop =>
        have h : before.length = texts older := by simpa [texts, Entry.isBytes] using h
        simp [forgetOldest, keep, Position.keep, ← h]
      | bytes count =>
        have h : before.length = texts older + 1 := by simpa [texts, Entry.isBytes] using h
        simp [forgetOldest, keep, Position.keep, List.dropLast_eq_take, h]

/-- Forgetting the oldest entries keeps the others. -/
theorem forget_eq_keep (n : Nat) : ∀ {m : Matcher}, m.Aligned →
    forget n m = m.keep (m.history.length - n) := by
  induction n with
  | zero => exact fun h => (keep_length h).symm
  | succ n ih =>
    intro m h
    rw [forget, forgetOldest_eq_keep h, ih (h.keep _), keep_keep]
    congr 1
    simp only [keep, List.length_take]
    omega

/-! ## What an input comes to -/

/-- Puts an entry into the history, and forgets none. -/
def push (m : Matcher) (e : Entry) : Matcher := { m with history := e :: m.history }

theorem record_eq_keep {e : Entry} (h : (m.push e).Aligned) :
    m.record e = (m.push e).keep (min (m.history.length + 1) m.horizon) := by
  have eq : m.record e = forget (m.history.length + 1 - m.horizon) (m.push e) := rfl
  rw [eq, forget_eq_keep _ h]
  congr 1
  simp only [push, List.length_cons]
  omega

/-- Reads a byte string, if all of it can be read. Answers the matcher before this is recorded, and
what is to be recorded. -/
def admitBytes? (m : Matcher) (bytes : Bytes) : Option (Matcher × Entry) :=
  (done? (m.advance bytes)).map fun m => (m, .bytes bytes.length)

/-- Accepts an input, if it can be accepted, but does not record it. -/
def admit? (m : Matcher) : Input → Option (Matcher × Entry)
  | .token id =>
    if m.stopped || m.compiled.vocabulary.size ≤ id then none
    else if m.stopIds.contains id then
      if m.mayEnd then some ({ m with stopped := true }, .stop) else none
    else if m.compiled.vocabulary.isSpecial id || m.compiled.vocabulary.stopIds.contains id then none
    else m.admitBytes? (m.compiled.vocabulary.bytesOf id)
  | .bytes bytes => if m.stopped then none else m.admitBytes? bytes
  | .text text => if m.stopped then none else m.admitBytes? (Utf8.ofString text)

theorem read_eq (h : m.position.Standing) (bytes : Bytes) :
    m.read bytes = match m.admitBytes? bytes with
      | some (m', e) => (true, m'.record e)
      | none => (false, m) := by
  rcases hread : m.advance bytes with ⟨done, m'⟩
  cases done with
  | true => simp [read, admitBytes?, hread, done?]
  | false =>
    have same : m.advance bytes = (false, m) := advance_of_false h (by rw [hread])
    rw [hread] at same
    simpa [read, admitBytes?, hread, done?] using same

/-- To accept an input is to admit and to record it. -/
theorem accept_eq (h : m.position.Standing) (input : Input) :
    m.accept input = match m.admit? input with
      | some (m', e) => (true, m'.record e)
      | none => (false, m) := by
  cases input with
  | token id =>
    simp only [accept, acceptToken, admit?]
    split_ifs
    · rfl
    · rfl
    · rfl
    · rfl
    · exact read_eq h _
  | bytes bytes =>
    simp only [accept, acceptBytes, admit?]
    split_ifs
    · rfl
    · exact read_eq h _
  | text text =>
    simp only [accept, acceptText, acceptBytes, admit?]
    split_ifs
    · rfl
    · exact read_eq h _

/-- An input that is refused leaves a matcher as it was. -/
theorem accept_refused (h : m.position.Standing) (input : Input) :
    (m.accept input).1 = true ∨ m.accept input = (false, m) := by
  rw [accept_eq h]
  split
  · exact Or.inl rfl
  · exact Or.inr rfl

/-- Taking back more entries than there are leaves a matcher as it was. -/
theorem rollback_refused (m : Matcher) (n : Nat) :
    (m.rollback n).1 = true ∨ m.rollback n = (false, m) := by
  rw [rollback]
  split
  · exact Or.inr rfl
  · exact Or.inl rfl

/-- Reading a byte string records it if the position is a state of a table, and else puts its levels on
the stack. -/
theorem advance_cases {m' : Matcher} {bytes : Bytes} (h : m.position.Standing)
    (hread : m.advance bytes = (true, m')) : (∃ s s' before, m.position = .single s before ∧
      m.rootTable.run? s bytes = some s' ∧ m' = { m with position := .single s' (s :: before) }) ∨
    ∃ stack more, m.position = .stacked stack ∧ more.size = bytes.length ∧
      stack.advance m.compiled m.ceiling bytes = (true, stack ++ more) ∧
        m' = { m with position := .stacked (stack ++ more) } := by
  cases hm : m.position with
  | single s before =>
    rw [advance, hm] at hread
    cases hrun : m.rootTable.run? s bytes with
    | none => simp [hrun] at hread
    | some s' =>
      obtain rfl : { m with position := .single s' (s :: before) } = m' := by
        simpa [hrun] using hread
      exact Or.inl ⟨s, s', before, rfl, hrun, rfl⟩
  | stacked stack =>
    rw [advance, hm] at hread
    rw [hm] at h
    rcases Stack.advance_grows m.compiled m.ceiling h bytes with ⟨more, hadvance, size⟩ | hadvance
    · obtain rfl : { m with position := .stacked (stack ++ more) } = m' := by
        simpa [hadvance] using hread
      exact Or.inr ⟨stack, more, rfl, size, hadvance, rfl⟩
    · simp [hadvance] at hread

/-- An input is admitted as a stop token or as a byte string that can be read. -/
theorem admit?_cases {m' : Matcher} {e : Entry} {input : Input}
    (h : m.admit? input = some (m', e)) : m.stopped = false ∧
      (m' = { m with stopped := true } ∧ e = .stop ∨
        ∃ bytes, m.advance bytes = (true, m') ∧ e = .bytes bytes.length) := by
  have read {bytes : Bytes} (h : m.admitBytes? bytes = some (m', e)) :
      m.advance bytes = (true, m') ∧ e = .bytes bytes.length := by
    rcases hread : m.advance bytes with ⟨done, m''⟩
    cases done <;> simp_all [admitBytes?, done?]
  cases input with
  | token id =>
    simp only [admit?] at h
    split_ifs at h with h₁ h₂ h₃
    · have h₁ : m.stopped = false ∧ id < m.compiled.vocabulary.size := by simpa using h₁
      simp only [Option.some.injEq, Prod.mk.injEq] at h
      exact ⟨h₁.1, Or.inl ⟨h.1.symm, h.2.symm⟩⟩
    · have h₁ : m.stopped = false ∧ id < m.compiled.vocabulary.size := by simpa using h₁
      exact ⟨h₁.1, Or.inr ⟨_, read h⟩⟩
  | bytes bytes =>
    simp only [admit?] at h
    split_ifs at h with h₁
    exact ⟨by simpa using h₁, Or.inr ⟨_, read h⟩⟩
  | text text =>
    simp only [admit?] at h
    split_ifs at h with h₁
    exact ⟨by simpa using h₁, Or.inr ⟨_, read h⟩⟩

theorem agree_keep (k : Nat) (m : Matcher) : Agree (m.keep k) m :=
  ⟨rfl, rfl, rfl, rfl, rfl, by cases hm : m.position <;> simp [keep, hm, Position.keep, Position.bare],
    rfl⟩

/-- What is left of a matcher reads what the matcher reads. -/
private theorem admitBytes?_keep (k : Nat) (bytes : Bytes) :
    (m.admitBytes? bytes = none ∧ (m.keep k).admitBytes? bytes = none) ∨
      ∃ m' v e, m.admitBytes? bytes = some (m', e) ∧ (m.keep k).admitBytes? bytes = some (v, e) ∧
        v.push e = (m'.push e).keep (k + 1) := by
  cases hm : m.position with
  | single s before =>
    have position : (m.keep k).position = .single s (before.take (texts (m.history.take k))) := by
      simp [keep, hm, Position.keep]
    have table : (m.keep k).rootTable = m.rootTable := rfl
    simp only [admitBytes?, advance, hm, position, table]
    cases m.rootTable.run? s bytes with
    | none => exact Or.inl ⟨rfl, rfl⟩
    | some s' =>
      refine Or.inr ⟨_, _, _, rfl, rfl, ?_⟩
      simp [push, keep, Position.keep]
  | stacked stack =>
    have position : (m.keep k).position = .stacked stack := by simp [keep, hm, Position.keep]
    have compiled : (m.keep k).compiled = m.compiled := rfl
    have ceiling : (m.keep k).ceiling = m.ceiling := rfl
    simp only [admitBytes?, advance, hm, position, compiled, ceiling]
    rcases Stack.advance m.compiled m.ceiling stack bytes with ⟨done, stack'⟩
    cases done with
    | false => exact Or.inl ⟨rfl, rfl⟩
    | true =>
      refine Or.inr ⟨_, _, _, rfl, rfl, ?_⟩
      simp [push, keep, Position.keep]

/-- What is left of a matcher admits what the matcher admits. -/
theorem admit?_keep (k : Nat) (input : Input) :
    (m.admit? input = none ∧ (m.keep k).admit? input = none) ∨
      ∃ m' v e, m.admit? input = some (m', e) ∧ (m.keep k).admit? input = some (v, e) ∧
        v.push e = (m'.push e).keep (k + 1) := by
  have compiled : (m.keep k).compiled = m.compiled := rfl
  have stopIds : (m.keep k).stopIds = m.stopIds := rfl
  have stopped : (m.keep k).stopped = m.stopped := rfl
  cases input with
  | token id =>
    simp only [admit?, compiled, stopIds, stopped, (agree_keep k m).mayEnd]
    split_ifs
    · exact Or.inl ⟨rfl, rfl⟩
    · refine Or.inr ⟨_, _, _, rfl, rfl, ?_⟩
      simp [push, keep]
    · exact Or.inl ⟨rfl, rfl⟩
    · exact Or.inl ⟨rfl, rfl⟩
    · exact admitBytes?_keep k _
  | bytes bytes =>
    simp only [admit?, stopped]
    split_ifs
    · exact Or.inl ⟨rfl, rfl⟩
    · exact admitBytes?_keep k _
  | text text =>
    simp only [admit?, stopped]
    split_ifs
    · exact Or.inl ⟨rfl, rfl⟩
    · exact admitBytes?_keep k _

/-- A matcher that admitted an input still has its options and its history. -/
structure Onward (m m' : Matcher) : Prop where
  horizon : m'.horizon = m.horizon
  history : m'.history = m.history
  reset : m'.reset = m.reset
  standing : m'.position.Standing

/-- Admitting an input keeps states and entries aligned, and undoing the entry leads back. -/
theorem admit?_spec {m' : Matcher} {e : Entry} {input : Input} (standing : m.position.Standing)
    (aligned : m.Aligned) (h : m.admit? input = some (m', e)) :
    Onward m m' ∧ (m'.push e).Aligned ∧ ∀ k,
      ({ (m'.push e).keep (k + 1) with history := m.history.take k }).undo e = m.keep k := by
  obtain ⟨hstopped, ⟨rfl, rfl⟩ | ⟨bytes, hread, rfl⟩⟩ := admit?_cases h
  · refine ⟨⟨rfl, rfl, rfl, standing⟩, ?_, fun k => ?_⟩
    · cases hm : m.position <;> simp_all [Aligned, push]
    · simp [push, keep, undo, hstopped]
  · rcases advance_cases standing hread with
      ⟨s, s', before, hm, -, rfl⟩ | ⟨stack, more, hm, size, -, rfl⟩
    · refine ⟨⟨rfl, rfl, rfl, trivial⟩, ?_, fun k => ?_⟩
      · have : before.length = texts m.history := by simpa [Aligned, hm] using aligned
        simp [Aligned, push, this]
      · simp [push, keep, undo, Position.keep, hm]
    · rw [hm] at standing
      refine ⟨⟨rfl, rfl, rfl, ?_⟩, by simp [Aligned, push], fun k => ?_⟩
      · have : stack.size ≠ 0 := standing
        simp [Position.Standing, this]
      · simp [push, keep, undo, Position.keep, hm, ← size, Stack.drop_append standing]

/-- Accepting an input adds to what is left of a matcher. -/
theorem accept_keep (standing : m.position.Standing) (aligned : m.Aligned) {k : Nat}
    (hk : k ≤ m.history.length) (input : Input) :
    (m.admit? input = none ∧ (m.keep k).accept input = (false, m.keep k)) ∨
      ∃ m' e, m.admit? input = some (m', e) ∧
        (m.keep k).accept input = (true, (m'.push e).keep (min (k + 1) m.horizon)) := by
  have standing' : (m.keep k).position.Standing := by
    cases hm : m.position <;> simp_all [keep, Position.keep, Position.Standing]
  rw [accept_eq standing']
  rcases admit?_keep (m := m) k input with ⟨hnone, hnone'⟩ | ⟨m', v, e, hsome, hsome', hpush⟩
  · exact Or.inl ⟨hnone, by rw [hnone']⟩
  · refine Or.inr ⟨m', e, hsome, ?_⟩
    obtain ⟨onward, aligned', -⟩ := admit?_spec standing aligned hsome
    have length : v.history.length = k := by
      have := congrArg (fun m : Matcher => m.history.length) hpush
      simp [push, keep, onward.history] at this
      omega
    have horizon : v.horizon = m.horizon :=
      (congrArg Matcher.horizon hpush).trans onward.horizon
    rw [hsome']
    simp only
    rw [record_eq_keep (hpush ▸ aligned'.keep _), hpush, keep_keep, length, horizon,
      Nat.min_eq_left (Nat.min_le_left _ _)]

end

/-! ## A matcher that forgets nothing -/

/-- A matcher that accepted inputs, of which the last one comes first, and forgot nothing. -/
inductive Retraced (m₀ : Matcher) : List Input → Matcher → Prop
  | start : Retraced m₀ [] m₀
  | next {net : List Input} {u u' : Matcher} {input : Input} {e : Entry} (h : Retraced m₀ net u)
    (admitted : u.admit? input = some (u', e)) : Retraced m₀ (input :: net) (u'.push e)

/-- A matcher as it is when it is new. -/
structure Fresh (m : Matcher) : Prop where
  history : m.history = []
  reset : m.reset = m
  keep : m.keep 0 = m
  standing : m.position.Standing

theorem fresh_new (c : Compiled) (o : Options) (usualDepth : Nat) : (new c o usualDepth).Fresh where
  history := rfl
  reset := rfl
  keep := by
    have : (startPosition c (min (o.maxDepth.getD usualDepth) deepest)).keep 0 =
        startPosition c (min (o.maxDepth.getD usualDepth) deepest) := by
      unfold startPosition
      split <;> simp [Position.keep]
    simp [Matcher.keep, new, texts, this]
  standing := standing_startPosition _ _

section

variable {m₀ : Matcher} (fresh : m₀.Fresh)

include fresh

/-- What holds of a matcher that forgets nothing. -/
theorem Retraced.spec {net : List Input} {u : Matcher} (h : Retraced m₀ net u) :
    u.Aligned ∧ u.position.Standing ∧ u.history.length = net.length ∧ u.horizon = m₀.horizon ∧
      u.reset = m₀ := by
  induction h with
  | start =>
    refine ⟨?_, fresh.standing, by simp [fresh.history], rfl, fresh.reset⟩
    have := fresh.keep
    cases hm : m₀.position with
    | stacked stack => simp [Aligned, hm]
    | single s before =>
      have := congrArg Matcher.position this
      simp [Matcher.keep, Position.keep, hm, texts] at this
      simp [Aligned, hm, fresh.history, ← this, texts]
  | next h admitted ih =>
    obtain ⟨aligned, standing, length, horizon, reset⟩ := ih
    obtain ⟨onward, aligned', -⟩ := admit?_spec standing aligned admitted
    exact ⟨aligned', onward.standing, by simp [push, onward.history, length],
      onward.horizon.trans horizon, onward.reset.trans reset⟩

/-- Taking back the last entries leads to the matcher before their inputs. -/
theorem undoLast_keep (n : Nat) : ∀ {net : List Input} {u : Matcher} {k : Nat},
    Retraced m₀ net u → n ≤ k → k ≤ net.length →
      ∃ v, Retraced m₀ (net.drop n) v ∧ undoLast n (u.keep k) = v.keep (k - n) := by
  induction n with
  | zero => exact fun h _ _ => ⟨_, h, rfl⟩
  | succ n ih =>
    intro net u k h hn hk
    cases h with
    | start => simp at hk; omega
    | @next net u u' input e h admitted =>
      obtain ⟨k, rfl⟩ : ∃ j, k = j + 1 := ⟨k - 1, by omega⟩
      obtain ⟨aligned, standing, -⟩ := h.spec fresh
      obtain ⟨onward, -, undone⟩ := admit?_spec standing aligned admitted
      obtain ⟨v, hv, heq⟩ := ih (k := k) h (by omega) (by simpa using hk)
      refine ⟨v, hv, ?_⟩
      have history : ((u'.push e).keep (k + 1)).history = e :: u.history.take k := by
        simp [push, Matcher.keep, onward.history]
      rw [undoLast, history]
      simp only [undone]
      rw [heq, Nat.add_sub_add_right]

/-- Replaying the inputs on a new matcher leads to what is left of the one that forgets nothing. -/
theorem replay_eq {net : List Input} {u : Matcher} (h : Retraced m₀ net u) :
    replay m₀ net = some (u.keep (min net.length m₀.horizon)) := by
  induction h with
  | start => simp [replay, fresh.keep]
  | @next net u u' input e h admitted ih =>
    obtain ⟨aligned, standing, length, horizon, -⟩ := h.spec fresh
    have hk : min net.length m₀.horizon ≤ u.history.length := by omega
    rcases accept_keep standing aligned hk input with ⟨hnone, -⟩ | ⟨u'', e', hsome, haccept⟩
    · simp [hnone] at admitted
    · obtain ⟨rfl, rfl⟩ : u'' = u' ∧ e' = e := by simpa [hsome] using admitted
      rw [replay, ih, Option.bind_some, haccept, done?, horizon]
      congr 2
      simp only [List.length_cons]
      omega

/-- A matcher is what is left of one that forgets nothing and accepted the inputs of the log. -/
def Kept (m₀ m : Matcher) (log : Log) : Prop :=
  ∃ u, Retraced m₀ log.net u ∧ m = u.keep log.recorded ∧ log.recorded ≤ log.net.length ∧
    log.recorded ≤ m₀.horizon

omit fresh in
theorem Kept.horizon {m : Matcher} {log : Log} (fresh : m₀.Fresh) (h : Kept m₀ m log) :
    m.horizon = m₀.horizon := by
  obtain ⟨u, retraced, rfl, -⟩ := h
  exact (retraced.spec fresh).2.2.2.1

omit fresh in
theorem Kept.standing {m : Matcher} {log : Log} (fresh : m₀.Fresh) (h : Kept m₀ m log) :
    m.position.Standing := by
  obtain ⟨u, retraced, rfl, -⟩ := h
  have := (retraced.spec fresh).2.1
  cases hu : u.position <;> simp_all [Matcher.keep, Position.keep, Position.Standing]

/-- So many entries can be taken back as are recorded, and no more than the horizon. -/
theorem Kept.rollback {m : Matcher} {log : Log} (h : Kept m₀ m log) (n : Nat) :
    (n ≤ m₀.horizon ∧ n ≤ log.recorded ∧ (m.rollback n).1 = true ∧
      Kept m₀ (m.rollback n).2 ⟨log.net.drop n, log.recorded - n⟩) ∨
    ¬ (n ≤ m₀.horizon ∧ n ≤ log.recorded) ∧ m.rollback n = (false, m) := by
  obtain ⟨u, retraced, rfl, hnet, hhorizon⟩ := h
  obtain ⟨-, -, length, horizon, -⟩ := retraced.spec fresh
  have history : (u.keep log.recorded).history.length = log.recorded := by
    simp only [Matcher.keep, List.length_take]
    omega
  have horizon : (u.keep log.recorded).horizon = m₀.horizon := horizon
  by_cases hn : n ≤ m₀.horizon ∧ n ≤ log.recorded
  · obtain ⟨v, hv, heq⟩ := undoLast_keep fresh n retraced hn.2 hnet
    have rollback : (u.keep log.recorded).rollback n = (true, v.keep (log.recorded - n)) := by
      rw [Matcher.rollback, history, horizon, if_neg (by omega), heq]
    refine Or.inl ⟨hn.1, hn.2, by rw [rollback], v, hv, by rw [rollback], ?_, ?_⟩
    · simp only [List.length_drop]
      omega
    · simp only
      omega
  · exact Or.inr ⟨hn, by rw [Matcher.rollback, history, horizon, if_pos (by omega)]⟩

/-- Each call leaves what is left of the matcher that forgets nothing, as the log tells. -/
theorem Kept.call {m : Matcher} {log : Log} (h : Kept m₀ m log) (c : Call) :
    Kept m₀ (m.call c).2 (log.after m.horizon c (m.call c).1) := by
  have horizon := h.horizon fresh
  have same {done : Bool} {c : Call} (hlog : log.after m.horizon c done = log) :
      Kept m₀ m (log.after m.horizon c done) := by
    rw [hlog]
    exact h
  have standing := h.standing fresh
  cases c with
  | fill buffer batch =>
    rw [Matcher.call, fill_snd standing]
    exact same (by simp [Log.after])
  | jump =>
    rw [Matcher.call, jump_snd standing]
    exact same (by simp [Log.after])
  | reset =>
    obtain ⟨u, retraced, rfl, -⟩ := h
    refine ⟨m₀, .start, ?_, by simp [Matcher.call, Log.after], by simp [Matcher.call, Log.after]⟩
    have reset : (u.keep log.recorded).reset = u.reset := rfl
    simp only [Matcher.call, Log.after, reset, (retraced.spec fresh).2.2.2.2, fresh.keep]
  | rollback n =>
    rcases h.rollback fresh n with ⟨-, -, hdone, kept⟩ | ⟨-, heq⟩
    · rw [Matcher.call, hdone]
      exact kept
    · rw [Matcher.call, heq]
      exact same (by simp [Log.after])
  | accept input =>
    obtain ⟨u, retraced, rfl, hnet, hhorizon⟩ := h
    obtain ⟨aligned, standing', length, horizon', -⟩ := retraced.spec fresh
    rcases accept_keep standing' aligned (length ▸ hnet) input with
      ⟨-, haccept⟩ | ⟨u', e, hsome, haccept⟩
    · rw [Matcher.call, haccept]
      exact same (by simp [Log.after])
    · rw [Matcher.call, haccept]
      refine ⟨u'.push e, retraced.next hsome, ?_, ?_, ?_⟩
      · simp only [Log.after, horizon, horizon']
      · simp only [Log.after, List.length_cons]
        omega
      · simp only [Log.after, horizon]
        omega

/-- All calls leave what is left of the matcher that forgets nothing, as the log tells. -/
theorem Kept.run (calls : List Call) : ∀ {m : Matcher} {log : Log}, Kept m₀ m log →
    Kept m₀ (m.run log calls).1 (m.run log calls).2 := by
  induction calls with
  | nil => exact id
  | cons c calls ih => exact fun h => ih (h.call fresh c)

end

/-- Whatever is asked of a new matcher leaves what is left of one that forgets nothing. -/
theorem kept_run (c : Compiled) (o : Options) (usualDepth : Nat) (calls : List Call) :
    Kept (new c o usualDepth) ((new c o usualDepth).run ⟨[], 0⟩ calls).1
      ((new c o usualDepth).run ⟨[], 0⟩ calls).2 :=
  Kept.run (fresh_new c o usualDepth) calls
    ⟨_, .start, (fresh_new c o usualDepth).keep.symm, by simp, by simp⟩

/-- Whatever is asked of a new matcher, what holds of it at first still holds, if it is kept when a text is
read and when the matcher is stopped, and does not depend on what is recorded. -/
theorem holds_run {P : Matcher → Prop} (agree : ∀ m m', Agree m m' → P m → P m')
    (read : ∀ m m' bytes, m.advance bytes = (true, m') → P m → P m')
    (stop : ∀ m : Matcher, P m → P { m with stopped := true })
    {c : Compiled} {o : Options} {usualDepth : Nat} (start : P (new c o usualDepth))
    (calls : List Call) : P ((new c o usualDepth).run ⟨[], 0⟩ calls).1 := by
  obtain ⟨u, retraced, hm, -⟩ := kept_run c o usualDepth calls
  suffices P u from hm ▸ agree _ _ (agree_keep _ u).symm this
  generalize ((new c o usualDepth).run ⟨[], 0⟩ calls).2.net = net at retraced
  clear hm
  induction retraced with
  | start => exact start
  | @next net u u' input e _ admitted ih =>
    have pushed : Agree u' (u'.push e) := ⟨rfl, rfl, rfl, rfl, rfl, rfl, rfl⟩
    refine agree _ _ pushed ?_
    obtain ⟨-, ⟨rfl, -⟩ | ⟨bytes, hread, -⟩⟩ := admit?_cases admitted
    · exact stop u ih
    · exact read u u' bytes hread ih

/-- Whatever is asked of a new matcher, it stands where a new matcher stands on which the inputs are
replayed that were accepted since the last reset and not taken back. All of them are accepted again.
Entries can be taken back as far as they are recorded, and nothing changes if there are not so
many. -/
theorem run_eq_replay (c : Compiled) (o : Options) (usualDepth : Nat) (calls : List Call) :
    let m := ((new c o usualDepth).run ⟨[], 0⟩ calls).1
    let log := ((new c o usualDepth).run ⟨[], 0⟩ calls).2
    (∃ m', replay (new c o usualDepth) log.net = some m' ∧ m.position.bare = m'.position.bare ∧
      m.stopped = m'.stopped ∧ m.mayEnd = m'.mayEnd ∧ m.isTerminated = m'.isTerminated ∧
      m.row = m'.row ∧ m.forcedText = m'.forcedText) ∧
    ∀ n, ((m.rollback n).1 = true ↔ n ≤ o.horizon ∧ n ≤ log.recorded) ∧
      ((m.rollback n).1 = true ∨ m.rollback n = (false, m)) := by
  intro m log
  have fresh := fresh_new c o usualDepth
  have kept : Kept (new c o usualDepth) m log := kept_run c o usualDepth calls
  refine ⟨?_, fun n => ?_⟩
  · obtain ⟨u, retraced, hm, -⟩ := kept
    refine ⟨_, replay_eq fresh retraced, ?_⟩
    have agree : Agree m (u.keep (min log.net.length (new c o usualDepth).horizon)) :=
      hm ▸ (agree_keep log.recorded u).trans (agree_keep _ u).symm
    exact ⟨agree.position, agree.stopped, agree.mayEnd, agree.isTerminated, agree.row,
      agree.forcedText⟩
  · rcases kept.rollback fresh n with ⟨hhorizon, hrecorded, hdone, -⟩ | ⟨hmany, heq⟩
    · exact ⟨iff_of_true hdone ⟨hhorizon, hrecorded⟩, Or.inl hdone⟩
    · exact ⟨iff_of_false (by simp [heq]) hmany, Or.inr heq⟩

/-- Whatever was asked of a new matcher, each input that it refuses, each number of entries that it does
not take back, and everything that it is only asked leaves it as it was: its position with all
levels or recorded states, its history, and whether it was stopped. -/
theorem unchanged_unless_done (c : Compiled) (o : Options) (usualDepth : Nat) (calls : List Call) :
    let m := ((new c o usualDepth).run ⟨[], 0⟩ calls).1
    (∀ input, (m.accept input).1 = true ∨ m.accept input = (false, m)) ∧
    (∀ n, (m.rollback n).1 = true ∨ m.rollback n = (false, m)) ∧
    (∀ buffer batch, (m.fill buffer batch).2 = m) ∧ m.jump.2 = m := by
  intro m
  have standing : m.position.Standing :=
    (kept_run c o usualDepth calls).standing (fresh_new c o usualDepth)
  exact ⟨accept_refused standing, rollback_refused m, fill_snd standing, jump_snd standing⟩

end ConstrainedDecoding.Matcher
