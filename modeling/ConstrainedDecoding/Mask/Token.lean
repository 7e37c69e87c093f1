import ConstrainedDecoding.Automaton.Table
import ConstrainedDecoding.Mask.Bitmask
import ConstrainedDecoding.Vocabulary.Basic

/-!
# Token masks

A token mask says of each token what reading it from one state of one rule comes to: it can be read
there, it cannot, or it leaves the rule on the way and what surrounds the rule decides. Tokens are
taken in the order of their bytes; a token that cannot be read rules out all tokens that start with
it, so their whole run is skipped.
-/
namespace ConstrainedDecoding

/-- What reading a token comes to. -/
inductive Verdict
  | accepted
  | rejected
  /-- The surroundings of the rule decide. -/
  | uncertain
  deriving DecidableEq

/-- Whether a state can be left for another rule, by ending this one or by calling one. -/
def Table.mayLeave (t : Table) (s : StateId) : Bool :=
  t.accepts s || ! (t.callsOf s).isEmpty

/-- Classifies a token from a state; `left` says whether the rule could be left before. -/
def Table.classifyFrom (t : Table) (s : StateId) (left : Bool) : Bytes → Verdict
  | [] => if t.scansAt s || t.accepts s then .accepted else .uncertain
  | b :: bs =>
    let left := left || t.mayLeave s
    match t.next? s b with
    | some s => t.classifyFrom s left bs
    | none => if left then .uncertain else .rejected

/-- Classifies a token from a state. -/
def Table.classify (t : Table) (s : StateId) (token : Bytes) : Verdict :=
  t.classifyFrom s false token

/-- A set of tokens, held in the smaller of two forms. -/
inductive TokenSet
  /-- The ids of the tokens, ascending. -/
  | ids (ids : List Nat)
  /-- A bit for each token. -/
  | bits (bits : Bitmask)
  deriving DecidableEq

/-- What reading tokens from one state comes to. -/
structure TokenMask where
  accepted : TokenSet
  /-- The uncertain tokens, by their places among the sorted tokens, ascending. -/
  uncertain : List Nat
  deriving DecidableEq

namespace TokenMask

/-- The mask of a state that reads no byte. -/
def empty : TokenMask := ⟨.ids [], []⟩

/-- The mask of accepted ids and uncertain places, for a number of tokens. -/
def ofClasses (size : Nat) (accepted : List Nat) (uncertain : List Nat) : TokenMask :=
  let words := Bitmask.wordsFor size
  if accepted.length < words then ⟨.ids (accepted.mergeSort (· ≤ ·)), uncertain⟩
  else ⟨.bits (accepted.foldl Bitmask.allow (Bitmask.zero words)), uncertain⟩

/-- The number of accepted tokens. -/
def acceptedCount (m : TokenMask) : Nat :=
  match m.accepted with
  | .ids ids => ids.length
  | .bits bits => bits.count

/-- Allows the accepted tokens in a row. -/
def applyTo (m : TokenMask) (row : Bitmask) : Bitmask :=
  match m.accepted with
  | .ids ids => ids.foldl Bitmask.allow row
  | .bits bits => row.union bits

/-- The number of bytes that a mask is reckoned to take. -/
def memory (m : TokenMask) : Nat :=
  4 * (match m.accepted with
    | .ids ids => ids.length
    | .bits bits => bits.size) + 4 * m.uncertain.length + 56

/-- Classifies the sorted tokens from place `i` on, and answers the ids of the accepted tokens and
the places of the uncertain ones. -/
def classes (t : Table) (s : StateId) (v : Vocabulary) (i : Nat) : List Nat × List Nat :=
  if h : i < v.sortedIds.size then
    let id := v.sortedIds[i]
    match t.classify s (v.bytesOf id) with
    | .accepted =>
      let (accepted, uncertain) := classes t s v (i + 1)
      (id :: accepted, uncertain)
    | .uncertain =>
      let (accepted, uncertain) := classes t s v (i + 1)
      (accepted, i :: uncertain)
    | .rejected => classes t s v (max (v.runEnds.getD i 0) (i + 1))
  else ([], [])
termination_by v.sortedIds.size - i

/-- The mask of a state. -/
def ofState (t : Table) (v : Vocabulary) (s : StateId) : TokenMask :=
  let (accepted, uncertain) := classes t s v 0
  ofClasses v.size accepted uncertain

end TokenMask

end ConstrainedDecoding
