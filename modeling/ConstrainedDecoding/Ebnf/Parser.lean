import ConstrainedDecoding.Ebnf.Lexer
import ConstrainedDecoding.Ebnf.Phrase

/-!
# Reading rules from tokens

Rules are read by recursive descent. A name is in scope if the text declares it anywhere, or if an
earlier quantified group has been given it. Each reader answers what it read together with the
tokens left over, which are fewer than before.
-/
namespace ConstrainedDecoding.Ebnf

/-- Something read from a list of `n` tokens: the value, the names in scope after it, and the
tokens left over. -/
structure Parsed (n : Nat) (α : Type) where
  value : α
  names : NameTable
  rest : List (Located Token)
  shorter : rest.length < n

namespace Parsed

/-- Something read from a shorter list, as read from a longer one. -/
def widen {m n : Nat} {α : Type} (p : Parsed m α) (h : m ≤ n) : Parsed n α :=
  ⟨p.value, p.names, p.rest, Nat.lt_of_lt_of_le p.shorter h⟩

end Parsed

/-- The next token; the end of the text if there is none. -/
def next (ts : List (Located Token)) : Located Token := ts.headD ⟨.start, .endOfFile⟩

/-- A fault at the next token. -/
def faultAt {α : Type} (ts : List (Located Token)) (cause : RuleFault) : Except Fault α :=
  .error (.rule (next ts).position cause)

/-- The ranges of a class. A dash between two members makes a range of them; `close` is the place
of the closing bracket. -/
def classRanges (close : Position) :
    List (Located ClassMember) → Except Fault (List (UInt32 × UInt32))
  | [] => .ok []
  | ⟨_, lo⟩ :: ⟨_, .dash⟩ :: ⟨_, hi⟩ :: rest =>
    if hi.codePoint < lo.codePoint then
      .error (.rule (match rest with | [] => close | m :: _ => m.position) .classOrder)
    else (classRanges close rest).map ((lo.codePoint, hi.codePoint) :: ·)
  | ⟨_, m⟩ :: rest => (classRanges close rest).map ((m.codePoint, m.codePoint) :: ·)

/-- Reads a bound of a repetition. -/
def bound (ts : List (Located Token)) : Except Fault (UInt32 × List (Located Token)) :=
  match ts with
  | ⟨_, .integer n⟩ :: rest =>
    if n < 0x100000000 then .ok (UInt32.ofNat n, rest) else faultAt ts .boundTooLarge
  | _ => faultAt ts .expectedInteger

/-- Reads `n}`, `n,}` or `n,m}`. -/
def bounds (ts : List (Located Token)) :
    Except Fault ((UInt32 × Option UInt32) × List (Located Token)) := do
  let (least, ts) ← bound ts
  match ts with
  | ⟨_, .rightBrace⟩ :: rest => return ((least, some least), rest)
  | ⟨_, .comma⟩ :: ⟨_, .rightBrace⟩ :: rest => return ((least, none), rest)
  | ⟨_, .comma⟩ :: rest =>
    let (most, rest) ← bound rest
    if most < least then faultAt rest .boundsOrder
    else
      match rest with
      | ⟨_, .rightBrace⟩ :: rest => return ((least, some most), rest)
      | _ => faultAt rest .expectedBrace
  | _ => faultAt ts .expectedBoundEnd

theorem length_lt_of_bound {ts rest : List (Located Token)} {n : UInt32}
    (h : bound ts = .ok (n, rest)) : rest.length < ts.length := by
  unfold bound at h
  split at h
  · split at h
    · simp only [Except.ok.injEq, Prod.mk.injEq] at h
      simp [← h.2]
    · simp [faultAt] at h
  · simp [faultAt] at h

theorem length_lt_of_bounds {ts rest : List (Located Token)} {b : UInt32 × Option UInt32}
    (h : bounds ts = .ok (b, rest)) : rest.length < ts.length := by
  unfold bounds at h
  cases hb : bound ts with
  | error e => simp [hb, bind, Except.bind] at h
  | ok r =>
    obtain ⟨least, us⟩ := r
    have hlt := length_lt_of_bound hb
    simp only [hb, bind, Except.bind, pure, Except.pure] at h
    split at h
    · simp only [Except.ok.injEq, Prod.mk.injEq] at h
      rw [← h.2]
      simp only [List.length_cons] at hlt
      omega
    · simp only [Except.ok.injEq, Prod.mk.injEq] at h
      rw [← h.2]
      simp only [List.length_cons] at hlt
      omega
    · rename_i vs _
      cases hc : bound vs with
      | error e => simp [hc] at h
      | ok r =>
        obtain ⟨most, ws⟩ := r
        have hlt' := length_lt_of_bound hc
        simp only [hc] at h
        split at h
        · simp [faultAt] at h
        · split at h
          · simp only [Except.ok.injEq, Prod.mk.injEq] at h
            rw [← h.2]
            simp only [List.length_cons] at hlt hlt'
            omega
          · simp [faultAt] at h
    · simp [faultAt] at h

/-- Applies a quantifier to an element of the rule with the given name. -/
def quantify {n : Nat} (rule : String) (p : Parsed n Phrase) (least : UInt32)
    (most : Option UInt32) (rest : List (Located Token)) (h : rest.length < n) :
    Parsed n Phrase :=
  let names := if p.value.hoists least most then p.names.declare (p.names.unused rule) else p.names
  ⟨.quantified p.value least most, names, rest, h⟩

/-- Whether a sequence ends before a token. -/
def endsSequence : Token → Bool
  | .pipe | .rightParen | .leftLookahead | .ruleName _ | .endOfFile => true
  | _ => false

mutual

/-- Reads an element without its quantifier. -/
def element (rule : String) (names : NameTable) (ts : List (Located Token)) :
    Except Fault (Parsed ts.length Phrase) :=
  match ts with
  | [] => faultAt ts (.expectedElement Token.endOfFile.name)
  | t :: us =>
    match t.value with
    | .leftParen =>
      match us with
      | ⟨_, .rightParen⟩ :: rest =>
        .ok ⟨.empty, names, rest, by simp only [List.length_cons]; omega⟩
      | us =>
        match choice rule names us with
        | .error e => .error e
        | .ok p =>
          match hrest : p.rest with
          | ⟨_, .rightParen⟩ :: rest =>
            .ok ⟨p.value, p.names, rest, by
              have := p.shorter; rw [hrest] at this; simp only [List.length_cons] at *; omega⟩
          | rest => faultAt rest .expectedClose
    | .charClass negated members close =>
      (classRanges close members).map fun ranges =>
        ⟨.charClass ⟨negated, ranges⟩, names, us, Nat.lt_succ_self _⟩
    | .literal text =>
      .ok ⟨if text.isEmpty then .empty else .literal text, names, us, Nat.lt_succ_self _⟩
    | .identifier name =>
      match names.find? name with
      | some r => .ok ⟨.reference r, names, us, Nat.lt_succ_self _⟩
      | none => .error (.rule t.position (.undefined name))
    | other => .error (.rule t.position (.expectedElement other.name))
termination_by (ts.length, 0)

/-- Reads an element with its quantifier, if it has one. -/
def quantified (rule : String) (names : NameTable) (ts : List (Located Token)) :
    Except Fault (Parsed ts.length Phrase) :=
  match element rule names ts with
  | .error e => .error e
  | .ok p =>
    have hp := p.shorter
    match hrest : p.rest with
    | ⟨_, .star⟩ :: rest =>
      .ok (quantify rule p 0 none rest (by rw [hrest, List.length_cons] at hp; omega))
    | ⟨_, .plus⟩ :: rest =>
      .ok (quantify rule p 1 none rest (by rw [hrest, List.length_cons] at hp; omega))
    | ⟨_, .question⟩ :: rest =>
      .ok (quantify rule p 0 (some 1) rest
        (by rw [hrest, List.length_cons] at hp; omega))
    | ⟨_, .leftBrace⟩ :: rest =>
      match hbounds : bounds rest with
      | .error e => .error e
      | .ok ((least, most), after) =>
        .ok (quantify rule p least most after (by
          have := length_lt_of_bounds hbounds
          rw [hrest, List.length_cons] at hp; omega))
    | _ => .ok p
termination_by (ts.length, 1)

/-- Reads elements up to the end of their sequence. -/
def sequence (rule : String) (names : NameTable) (ts : List (Located Token)) :
    Except Fault (Parsed ts.length (List Phrase)) :=
  match quantified rule names ts with
  | .error e => .error e
  | .ok p =>
    have hp := p.shorter
    if endsSequence (next p.rest).value then .ok ⟨[p.value], p.names, p.rest, hp⟩
    else
      match sequence rule p.names p.rest with
      | .error e => .error e
      | .ok q => .ok ⟨p.value :: q.value, q.names, q.rest, by have := q.shorter; omega⟩
termination_by (ts.length, 2)

/-- Reads sequences with bars between them. -/
def alternatives (rule : String) (names : NameTable) (ts : List (Located Token)) :
    Except Fault (Parsed ts.length (List Phrase)) :=
  match sequence rule names ts with
  | .error e => .error e
  | .ok p =>
    have hp := p.shorter
    match hrest : p.rest with
    | ⟨_, .pipe⟩ :: rest =>
      have : rest.length < ts.length := by rw [hrest, List.length_cons] at hp; omega
      match alternatives rule p.names rest with
      | .error e => .error e
      | .ok q =>
        .ok ⟨.sequence p.value :: q.value, q.names, q.rest, by have := q.shorter; omega⟩
    | rest => .ok ⟨[.sequence p.value], p.names, rest, by rw [hrest] at hp; exact hp⟩
termination_by (ts.length, 3)

/-- Reads a choice. -/
def choice (rule : String) (names : NameTable) (ts : List (Located Token)) :
    Except Fault (Parsed ts.length Phrase) :=
  (alternatives rule names ts).map fun p => ⟨.choice p.value, p.names, p.rest, p.shorter⟩
termination_by (ts.length, 4)

end

/-- Reads a lookahead, if one follows; `n` exceeds the number of tokens. -/
def lookahead (rule : String) (names : NameTable) (ts : List (Located Token)) {n : Nat}
    (h : ts.length < n) : Except Fault (Parsed n (Option Phrase)) :=
  match ts with
  | ⟨_, .leftLookahead⟩ :: us =>
    match choice rule names us with
    | .error e => .error e
    | .ok p =>
      match hrest : p.rest with
      | ⟨_, .rightParen⟩ :: rest =>
        .ok ⟨some p.value, p.names, rest, by
          have := p.shorter; rw [hrest] at this; simp only [List.length_cons] at *; omega⟩
      | rest => faultAt rest .expectedClose
  | ts => .ok ⟨none, names, ts, h⟩

/-- Reads the declaration of one rule. -/
def declaration (names : NameTable) (ts : List (Located Token)) :
    Except Fault (Parsed ts.length Declaration) :=
  match ts with
  | ⟨_, .ruleName name⟩ :: ⟨_, .assign⟩ :: us =>
    match choice name names us with
    | .error e => .error e
    | .ok p =>
      (lookahead name p.names p.rest p.shorter).map fun q =>
        ⟨⟨name, (names.find? name).getD 0, p.value, q.value⟩, q.names, q.rest, by
          have := q.shorter; simp only [List.length_cons]; omega⟩
  | ⟨_, .ruleName _⟩ :: us => faultAt us .expectedAssign
  | ts => faultAt ts .expectedRuleName

/-- Reads declarations up to the end of the text. -/
def declarations (names : NameTable) (ts : List (Located Token)) :
    Except Fault (List Declaration) :=
  match (next ts).value with
  | .endOfFile => .ok []
  | _ =>
    match declaration names ts with
    | .error e => .error e
    | .ok p =>
      have := p.shorter
      (declarations p.names p.rest).map (p.value :: ·)
termination_by ts.length

/-- Declares all rule names of a text. -/
def declareAll (names : NameTable) : List (Located Token) → Except Fault NameTable
  | [] => .ok names
  | ⟨p, .ruleName name⟩ :: rest =>
    if (names.find? name).isSome then .error (.rule p (.definedTwice name))
    else declareAll (names.declare name) rest
  | _ :: rest => declareAll names rest

/-- The declarations of a text that declares the given root rule. -/
def parse (text root : String) : Except Fault (List Declaration) := do
  let ts ← tokens text
  let names ← declareAll .empty ts
  if (names.find? root).isNone then throw (.rootNotFound root)
  declarations names ts

end ConstrainedDecoding.Ebnf
