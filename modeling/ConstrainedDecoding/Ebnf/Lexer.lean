import ConstrainedDecoding.Ebnf.Token
import ConstrainedDecoding.Text.Utf8

/-!
# Cutting a grammar text into tokens

Blanks and comments (from `#` to the end of the line) separate tokens. Literals and classes share
their escapes, except that a class also takes a backslash before the characters that are special
in classes and patterns. Every step leaves a shorter text, which is why `tokens` ends.
-/
namespace ConstrainedDecoding.Ebnf

/-! ## Escapes -/

/-- Reads exactly `digits` hexadecimal digits. -/
def hexDigits (kind : EscapeKind) (digits : Nat) (cs : List Char) : Except TokenFault Nat :=
  let ds := cs.take digits
  if ds.length = digits ∧ ds.all Text.isHex then .ok (Text.hexNumber ds)
  else if Utf8.size cs < digits then .error (.fewHexDigits kind digits)
  else .error (.badHexDigit kind)

/-- The character that a one-letter escape stands for. -/
def simpleEscape? (c : Char) : Option Nat :=
  if c ∈ ['\x27', '"', '?', '\\', '/'] then some c.toNat
  else if c = 'a' then some 0x07
  else if c = 'b' then some 0x08
  else if c = 'f' then some 0x0c
  else if c = 'n' then some 0x0a
  else if c = 'r' then some 0x0d
  else if c = 't' then some 0x09
  else if c = 'v' then some 0x0b
  else if c = '0' then some 0x00
  else if c = 'e' then some 0x1b
  else none

/-- The first byte of a character's UTF-8 form. -/
def firstByte (c : Char) : UInt8 := ((String.utf8EncodeChar c).head?).getD 0

/-- Reads an escape after its backslash: the code point, and the number of characters taken. A
backslash that is followed by one of the characters `own` stands for that character. -/
def readEscape (own : List Char) : List Char → Except TokenFault (Nat × Nat)
  | [] => .error .loneBackslash
  | c :: cs =>
    if c ∈ own then .ok (c.toNat, 1)
    else
      match simpleEscape? c with
      | some n => .ok (n, 1)
      | none =>
        if c = 'x' then
          let ds := (cs.take 8).takeWhile Text.isHex
          if ds.isEmpty then .error .noHexDigits else .ok (Text.hexNumber ds, 1 + ds.length)
        else if c = 'u' then (hexDigits .u 4 cs).map fun n => (n, 5)
        else if c = 'U' then (hexDigits .longU 8 cs).map fun n => (n, 9)
        else .error (.unknownEscape (firstByte c))

/-- Reads a character or an escape that starts with `c` and goes on in `cs`: the code point, and
the number of characters taken from `cs`. -/
def readUnit (own : List Char) (c : Char) (cs : List Char) : Except TokenFault (Nat × Nat) :=
  if c = '\\' then readEscape own cs else .ok (c.toNat, 0)

/-- The characters that stand for themselves after a backslash inside a class. -/
def classEscapes : List Char :=
  ['^', '$', '\\', '.', '*', '+', '?', '(', ')', '[', ']', '\x7b', '\x7d', '|', '/', '-']

/-! ## Literals, classes, names and numbers -/

/-- A part of a text that has been read, and what is left. -/
structure Cut (n : Nat) (α : Type) where
  value : α
  position : Position
  rest : List Char
  length_le : rest.length ≤ n

/-- Reads a literal after its opening quote, up to and including the closing one; `done` holds the
characters read, last first. -/
def readLiteral (p : Position) (done : List Char) (cs : List Char) :
    Except Fault (Cut cs.length String) :=
  match cs with
  | [] => .error (.token p .unterminatedLiteral)
  | c :: cs =>
    if c = '\n' ∨ c = '\r' then .error (.token p .unterminatedLiteral)
    else if c = '"' then .ok ⟨String.ofList done.reverse, p.right 1, cs, Nat.le_succ _⟩
    else
      match readUnit [] c cs with
      | .error e => .error (.token p e)
      | .ok (n, taken) =>
        if n.isValidChar then
          (readLiteral (p.right (c.utf8Size + taken)) (Char.ofNat n :: done)
            (cs.drop taken)).map fun cut =>
              ⟨cut.value, cut.position, cut.rest, by
                have := cut.length_le; simp only [List.length_drop, List.length_cons] at *; omega⟩
        else .error (.token p (.codePoint n))
termination_by cs.length
decreasing_by simp only [List.length_drop, List.length_cons]; omega

/-- Reads the members of a class up to and including the closing bracket; `done` holds the members
read, last first. The position that comes with the members is that of the bracket. -/
def readMembers (p : Position) (done : List (Located ClassMember)) (cs : List Char) :
    Except Fault (Cut cs.length (List (Located ClassMember) × Position)) :=
  match cs with
  | [] => .error (.token p .unterminatedClass)
  | c :: cs =>
    if c = ']' then .ok ⟨(done.reverse, p), p.right 1, cs, Nat.le_succ _⟩
    else if c = '\n' ∨ c = '\r' then .error (.token p .newlineInClass)
    else if c = '-' then
      (readMembers (p.right 1) (⟨p, .dash⟩ :: done) cs).map fun cut =>
        ⟨cut.value, cut.position, cut.rest, Nat.le_succ_of_le cut.length_le⟩
    else
      match readUnit classEscapes c cs with
      | .error e => .error (.token p e)
      | .ok (n, taken) =>
        (readMembers (p.right (c.utf8Size + taken)) (⟨p, .code (UInt32.ofNat n)⟩ :: done)
          (cs.drop taken)).map fun cut =>
            ⟨cut.value, cut.position, cut.rest, by
              have := cut.length_le; simp only [List.length_drop, List.length_cons] at *; omega⟩
termination_by cs.length
decreasing_by all_goals simp only [List.length_drop, List.length_cons]; omega

/-- Letters, `_`, `-` and `.` start a name; digits may follow. -/
def startsName (c : Char) : Bool := c = '_' || c = '-' || c = '.' || c.isAlpha

def continuesName (c : Char) : Bool := startsName c || c.isDigit

/-- The greatest whole number that a grammar text may hold. -/
def greatestInteger : Nat := 1000000000000000

/-- Reads a whole number. -/
def readInteger (p : Position) (n : Nat) (cs : List Char) : Except Fault (Cut cs.length Nat) :=
  match cs with
  | [] => .ok ⟨n, p, [], Nat.le_refl _⟩
  | c :: cs =>
    if c.isDigit then
      let n := n * 10 + (c.toNat - 48)
      if greatestInteger < n then .error (.token (p.right 1) .integerTooLarge)
      else (readInteger (p.right 1) n cs).map fun cut =>
        ⟨cut.value, cut.position, cut.rest, Nat.le_succ_of_le cut.length_le⟩
    else .ok ⟨n, p, c :: cs, Nat.le_refl _⟩

/-! ## Tokens -/

/-- Skips blanks and comments; the flag tells that a comment is open. -/
def skipBlanks (inComment : Bool) : Position → List Char → Position × List Char
  | p, [] => (p, [])
  | p, c :: cs =>
    let ends := c = '\n' ∨ c = '\r'
    if inComment then skipBlanks (¬ ends) (p.after c cs.head?) cs
    else if ends ∨ c = ' ' ∨ c = '\t' then skipBlanks false (p.after c cs.head?) cs
    else if c = '#' then skipBlanks true (p.after c cs.head?) cs
    else (p, c :: cs)

theorem length_skipBlanks_le (inComment : Bool) (p : Position) (cs : List Char) :
    (skipBlanks inComment p cs).2.length ≤ cs.length := by
  induction cs generalizing inComment p with
  | nil => simp [skipBlanks]
  | cons c cs ih =>
    simp only [skipBlanks]
    repeat' split
    all_goals first
      | exact Nat.le_succ_of_le (ih _ _)
      | simp

/-- The token that a character is by itself. -/
def punctuation? (c : Char) : Option Token :=
  if c = '(' then some .leftParen
  else if c = ')' then some .rightParen
  else if c = '\x7b' then some .leftBrace
  else if c = '\x7d' then some .rightBrace
  else if c = '|' then some .pipe
  else if c = ',' then some .comma
  else if c = '*' then some .star
  else if c = '+' then some .plus
  else if c = '?' then some .question
  else none

/-- Reads the token that starts with `c`. -/
def readToken (p : Position) (c : Char) (cs : List Char) : Except Fault (Cut cs.length Token) :=
  if c = '(' ∧ cs.head? = some '=' then
    .ok ⟨.leftLookahead, p.right 2, cs.drop 1, List.length_drop ▸ Nat.sub_le _ _⟩
  else
    match punctuation? c with
    | some t => .ok ⟨t, p.right 1, cs, Nat.le_refl _⟩
    | none =>
      if c = ':' then
        if cs.take 2 = [':', '='] then
          .ok ⟨.assign, p.right 3, cs.drop 2, List.length_drop ▸ Nat.sub_le _ _⟩
        else .error (.token p .colon)
      else if c = '"' then
        (readLiteral (p.right 1) [] cs).map fun cut =>
          ⟨.literal cut.value, cut.position, cut.rest, cut.length_le⟩
      else if c = '[' then
        let negated := cs.head? = some '^'
        let skipped := if negated then 1 else 0
        (readMembers (p.right (1 + skipped)) [] (cs.drop skipped)).map fun cut =>
          ⟨.charClass negated cut.value.1 cut.value.2, cut.position, cut.rest, by
            have := cut.length_le; simp only [List.length_drop] at this; omega⟩
      else if startsName c then
        let more := cs.takeWhile continuesName
        .ok ⟨.identifier (String.ofList (c :: more)), p.right (1 + more.length),
          cs.dropWhile continuesName, (List.dropWhile_suffix _).length_le⟩
      else if c.isDigit then
        (readInteger (p.right 1) (c.toNat - 48) cs).map fun cut =>
          ⟨.integer cut.value, cut.position, cut.rest, cut.length_le⟩
      else .error (.token p (.unexpected (firstByte c)))

/-- The tokens of a text from a position on, with the end of the text as the last one. -/
def tokensFrom (p : Position) (cs : List Char) : Except Fault (List (Located Token)) :=
  match _found : skipBlanks false p cs with
  | (q, []) => .ok [⟨q, .endOfFile⟩]
  | (q, c :: rest) =>
    match readToken q c rest with
    | .error e => .error e
    | .ok cut => (tokensFrom cut.position cut.rest).map (⟨q, cut.value⟩ :: ·)
termination_by cs.length
decreasing_by
  have skipped := length_skipBlanks_le false p cs
  have taken := cut.length_le
  rw [_found, List.length_cons] at skipped
  omega

/-- Makes rule names of the identifiers that stand right before `::=`; each has to be the first
token of its line. -/
def nameRules : Option (Located Token) → List (Located Token) →
    Except Fault (List (Located Token))
  | _, [] => .ok []
  | before, t :: rest =>
    match rest with
    | ⟨_, .assign⟩ :: _ =>
      match t.value with
      | .identifier name =>
        if before.any fun b => b.position.line = t.position.line then
          .error (.rule t.position .nameWithinLine)
        else (nameRules (some t) rest).map (⟨t.position, .ruleName name⟩ :: ·)
      | _ => .error (.rule t.last .assignAfterNoName)
    | _ => (nameRules (some t) rest).map (t :: ·)

/-- The tokens of a text. -/
def tokens (text : String) : Except Fault (List (Located Token)) := do
  let ts ← tokensFrom .start text.toList
  match ts with
  | ⟨p, .assign⟩ :: _ => .error (.rule p .assignFirst)
  | _ => nameRules none ts

end ConstrainedDecoding.Ebnf
