import ConstrainedDecoding.Regex.Classes
import ConstrainedDecoding.Regex.Fault
import ConstrainedDecoding.Regex.Pattern

/-!
# Reading patterns

Patterns are read by recursive descent over the characters that are left. A position is the number
of characters before it, so it follows from the length `size` of the whole pattern and what is
left. A caret at the start and a dollar sign at the end are taken and mean nothing.
-/
namespace ConstrainedDecoding.Regex

/-- A part of a pattern that has been read, and what is left of `n` characters. -/
structure Read (n : Nat) (α : Type) where
  value : α
  rest : List Char
  length_le : rest.length ≤ n

theorem length_le_self (cs : List Char) : cs.length ≤ cs.length := Nat.le_refl _

theorem length_le_cons (c : Char) (cs : List Char) : cs.length ≤ (c :: cs).length := Nat.le_succ _

namespace Read

/-- Reads nothing: all the characters are kept. -/
def keep {α : Type} (value : α) (cs : List Char) : Read cs.length α :=
  ⟨value, cs, length_le_self cs⟩

/-- Reads one character. -/
def skip {α : Type} (value : α) (c : Char) (cs : List Char) : Read (c :: cs).length α :=
  ⟨value, cs, length_le_cons c cs⟩

/-- What is left of fewer characters is left of more. -/
def widen {m n : Nat} {α : Type} (r : Read m α) (h : m ≤ n) : Read n α :=
  ⟨r.value, r.rest, Nat.le_trans r.length_le h⟩

/-- Reads a character before what has been read. -/
def after {α : Type} (c : Char) {cs : List Char} (r : Read cs.length α) :
    Read (c :: cs).length α :=
  ⟨r.value, r.rest, Nat.le_trans r.length_le (length_le_cons c cs)⟩

/-- Changes the value. -/
def map {n : Nat} {α β : Type} (f : α → β) (r : Read n α) : Read n β :=
  ⟨f r.value, r.rest, r.length_le⟩

end Read

/-- Reads exactly `count` hexadecimal digits, after which `n` has grown by their value. -/
def takeHex (n : Nat) : (count : Nat) → (cs : List Char) → Except Fault (Read cs.length Nat)
  | 0, cs => .ok (.keep n cs)
  | _ + 1, [] => .error .unexpectedEnd
  | count + 1, c :: cs =>
    match Text.hexValue? c with
    | none => .error (.badHexDigit c)
    | some d => (takeHex (n * 16 + d) count cs).map (·.after _)

/-- Reads hexadecimal digits up to a closing brace; `some n` tells that digits have been read. -/
def readBraced (n : Option Nat) : (cs : List Char) → Except Fault (Read cs.length Nat)
  | [] => .error .unexpectedEnd
  | c :: cs =>
    if c = '\x7d' then
      match n with
      | none => .error .emptyBraces
      | some n => .ok (.skip n _ cs)
    else
      match Text.hexValue? c with
      | none => .error (.badBracedDigit c)
      | some d =>
        let m := n.getD 0 * 16 + d
        if 0x10ffff < m then .error .outOfUnicode
        else (readBraced (some m) cs).map (·.after _)

/-- The code point of an escape of one character whose letter is `e`. -/
def escapeCode (e : Char) (cs : List Char) : Except Fault (Read cs.length Nat) :=
  if e = 'n' then .ok (.keep 0x0a cs)
  else if e = 'r' then .ok (.keep 0x0d cs)
  else if e = 't' then .ok (.keep 0x09 cs)
  else if e = 'f' then .ok (.keep 0x0c cs)
  else if e = 'v' then .ok (.keep 0x0b cs)
  else if e = '0' then .ok (.keep 0x00 cs)
  else if e = 'x' then takeHex 0 2 cs
  else if e = 'u' then
    match cs with
    | '\x7b' :: cs => (readBraced none cs).map (·.after _)
    | cs => takeHex 0 4 cs
  else .ok (.keep e.toNat cs)

/-- The class of a shorthand letter and whether it is the class outside the ranges. -/
def shorthand? (e : Char) : Option (Ranges × Bool) :=
  if e = 'd' then some (digitRanges, false)
  else if e = 'D' then some (digitRanges, true)
  else if e = 'w' then some (wordRanges, false)
  else if e = 'W' then some (wordRanges, true)
  else if e = 's' then some (spaceRanges, false)
  else if e = 'S' then some (spaceRanges, true)
  else none

/-- Reads an escape outside brackets, after its backslash. -/
def escape (cs : List Char) : Except Fault (Read cs.length Pattern) :=
  match cs with
  | [] => .error .unexpectedEnd
  | e :: cs =>
    match shorthand? e with
    | some (ranges, negated) => .ok (.skip (.set ⟨negated, ranges⟩) _ cs)
    | none =>
      if e = 'b' ∨ e = 'B' then .error .wordBoundary
      else if e = 'p' ∨ e = 'P' then .error .unicodeProperty
      else if ('1' ≤ e ∧ e ≤ '9') ∨ e = 'k' then .error .backreference
      else
        match escapeCode e cs with
        | .error fault => .error fault
        | .ok r =>
          if r.value.isValidChar then
            .ok ((r.map fun _ => .char (Char.ofNat r.value)).after _)
          else .error (.codePoint r.value)

/-- A member of a bracketed class: a code point or the ranges of a shorthand. -/
inductive Member
  | code (n : UInt32)
  | shorthand (ranges : Ranges)

/-- Reads a member of a bracketed class that starts with `c`. -/
def member (c : Char) (cs : List Char) : Except Fault (Read cs.length Member) :=
  if c ≠ '\\' then .ok (.keep (.code (UInt32.ofNat c.toNat)) cs)
  else
    match cs with
    | [] => .error .unexpectedEnd
    | e :: cs =>
      match shorthand? e with
      | some (ranges, negated) =>
        .ok (.skip (.shorthand (if negated then complement ranges else ranges)) _ cs)
      | none =>
        if e = 'b' then .ok (.skip (.code 0x08) _ cs)
        else if e = 'p' ∨ e = 'P' then .error .unicodeProperty
        else
          (escapeCode e cs).map fun r =>
            (r.map fun n => Member.code (UInt32.ofNat n)).after _

/-- Reads the members of a bracketed class up to the closing bracket, in a pattern of `size`
characters. A bracket in first place is a member. -/
def members (size : Nat) (first : Bool) (cs : List Char) : Except Fault (Read cs.length Ranges) :=
  match cs with
  | [] => .error .unclosedClass
  | c :: cs =>
    if c = ']' ∧ ¬ first then .ok (.skip [] _ cs)
    else
      match member c cs with
      | .error fault => .error fault
      | .ok r =>
        have hr := r.length_le
        match r.value with
        | .shorthand ranges =>
          (members size false r.rest).map fun more =>
            (more.map (ranges ++ ·)).widen (by simp only [List.length_cons]; omega)
        | .code lo =>
          match hrest : r.rest with
          | '-' :: h :: after =>
            have hafter : after.length + 2 ≤ cs.length := by
              rw [hrest] at hr; simp only [List.length_cons] at hr; omega
            if h = ']' then
              (members size false ('-' :: h :: after)).map fun more =>
                (more.map ((lo, lo) :: ·)).widen (by simp only [List.length_cons]; omega)
            else
              match member h after with
              | .error fault => .error fault
              | .ok r =>
                have hr := r.length_le
                match r.value with
                | .shorthand _ => .error .shorthandEndsRange
                | .code hi =>
                  if hi < lo then .error (.rangeOrder (size - r.rest.length))
                  else
                    (members size false r.rest).map fun more =>
                      (more.map ((lo, hi) :: ·)).widen (by simp only [List.length_cons]; omega)
          | rest =>
            (members size false rest).map fun more =>
              (more.map ((lo, lo) :: ·)).widen (by
                rw [hrest] at hr; simp only [List.length_cons]; omega)
termination_by cs.length
decreasing_by
  all_goals simp_all only [List.length_cons]
  all_goals omega

/-- The greatest count of a repetition. -/
def greatestCount : Nat := 0xFFFFFFFF

/-- Reads decimal digits, after which `n` has grown by their value. -/
def digits (n : Nat) : (cs : List Char) → Except Fault (Read cs.length Nat)
  | [] => .ok (.keep n [])
  | c :: cs =>
    if c.isDigit then
      let m := n * 10 + (c.toNat - 48)
      if greatestCount < m then .error .countTooLarge
      else (digits m cs).map (·.after _)
    else .ok (.keep n (c :: cs))

/-- Reads a count of a repetition. -/
def count (size : Nat) (cs : List Char) : Except Fault (Read cs.length Nat) :=
  if (cs.head?.any Char.isDigit) then digits 0 cs
  else .error (.expectedCount (size - cs.length))

/-- Reads the closing brace of a repetition. -/
def closeBrace (size : Nat) (q : Quantifier) (cs : List Char) :
    Except Fault (Read cs.length Quantifier) :=
  match cs with
  | '\x7d' :: cs =>
    match q with
    | .range least (some most) =>
      if most < least then .error (.quantifierOrder least most) else .ok (.skip q _ cs)
    | q => .ok (.skip q _ cs)
  | cs => .error (.expected '\x7d' (size - cs.length))

/-- Reads a repetition after its opening brace. -/
def repetition (size : Nat) (cs : List Char) : Except Fault (Read cs.length Quantifier) :=
  match count size cs with
  | .error fault => .error fault
  | .ok least =>
    have hleast := least.length_le
    match hrest : least.rest with
    | ',' :: '\x7d' :: rest =>
      .ok ⟨.range least.value none, rest, by
        rw [hrest] at hleast; simp only [List.length_cons] at hleast; omega⟩
    | ',' :: rest =>
      match count size rest with
      | .error fault => .error fault
      | .ok most =>
        (closeBrace size (.range least.value (some most.value)) most.rest).map
          (·.widen (by
            have := most.length_le
            rw [hrest] at hleast; simp only [List.length_cons] at hleast; omega))
    | rest =>
      (closeBrace size (.range least.value (some least.value)) rest).map
        (·.widen (by rw [hrest] at hleast; exact hleast))

/-- Reads a quantifier without its lazy mark, if there is one. -/
def quantifier (size : Nat) (cs : List Char) :
    Except Fault (Read cs.length (Option Quantifier)) :=
  match cs with
  | '*' :: rest => .ok (.skip (some .star) _ rest)
  | '+' :: rest => .ok (.skip (some .plus) _ rest)
  | '?' :: rest => .ok (.skip (some .question) _ rest)
  | '\x7b' :: rest =>
    if rest.head?.any Char.isDigit then
      (repetition size rest).map fun r => (r.map some).after _
    else .ok (.keep none ('\x7b' :: rest))
  | cs => .ok (.keep none cs)

/-- Applies the quantifier that follows an atom, if there is one. -/
def quantify (size : Nat) (atom : Pattern) (cs : List Char) :
    Except Fault (Read cs.length Pattern) :=
  match quantifier size cs with
  | .error fault => .error fault
  | .ok q =>
    match q.value with
    | none => .ok (q.map fun _ => atom)
    | some found =>
      let lazily : Read cs.length Pattern :=
        match h : q.rest with
        | '?' :: rest => ⟨.quantified atom found, rest, by
            have := q.length_le; rw [h] at this; simp only [List.length_cons] at this; omega⟩
        | _ => q.map fun _ => .quantified atom found
      if lazily.rest.head?.any (· ∈ ['*', '+', '?']) then
        .error (.consecutiveQuantifiers (size - lazily.rest.length))
      else .ok lazily

/-- Skips the name of a group up to and including its closing bracket. -/
def groupName : (cs : List Char) → Except Fault (Read cs.length Unit)
  | [] => .error .unterminatedName
  | c :: cs =>
    if c = '>' then .ok (.skip () _ cs) else (groupName cs).map (·.after _)

/-- Reads what may stand between the opening parenthesis of a group and its contents. -/
def groupHead (cs : List Char) : Except Fault (Read cs.length Unit) :=
  match cs with
  | '?' :: [] => .error .unexpectedEnd
  | '?' :: ':' :: rest => .ok ⟨(), rest, by simp only [List.length_cons]; omega⟩
  | '?' :: '<' :: rest =>
    if rest.head?.any (· ∈ ['=', '!']) then .error .lookbehind
    else (groupName rest).map (·.widen (by simp only [List.length_cons]; omega))
  | '?' :: c :: _ =>
    if c = '=' ∨ c = '!' then .error .lookahead else .error (.groupModifier c)
  | cs => .ok (.keep () cs)

/-- Whether a sequence ends before the rest of a pattern: at its end, at a bar or at a closing
parenthesis. -/
def endsSequence : List Char → Bool
  | [] => true
  | c :: _ => c = '|' || c = ')'

mutual

/-- Reads an atom that starts with `c`, in a pattern of `size` characters. -/
def atom (size : Nat) (c : Char) (cs : List Char) : Except Fault (Read cs.length Pattern) :=
  if c = '(' then
    match groupHead cs with
    | .error fault => .error fault
    | .ok head =>
      have hhead := head.length_le
      match alternation size head.rest with
      | .error fault => .error fault
      | .ok body =>
        match hrest : body.rest with
        | ')' :: rest => .ok ⟨.group body.value, rest, by
            have := body.length_le
            rw [hrest] at this; simp only [List.length_cons] at this; omega⟩
        | rest => .error (.unmatchedOpen (size - rest.length))
  else if c = '[' then
    match cs with
    | '^' :: rest =>
      (members size true rest).map fun r =>
        (r.map fun ranges => Pattern.set ⟨true, ranges⟩).after _
    | cs => (members size true cs).map fun r => r.map fun ranges => Pattern.set ⟨false, ranges⟩
  else if c = '.' then .ok (.keep (.set ⟨true, lineBreakRanges⟩) cs)
  else if c = '\\' then escape cs
  else if c ∈ ['*', '+', '?'] then .error (.nothingToRepeat c (size - cs.length - 1))
  else if c = '^' ∨ c = '$' then .error (.innerAnchor c (size - cs.length - 1))
  else .ok (.keep (.char c) cs)
termination_by (cs.length + 1, 0)
decreasing_by
  apply Prod.Lex.left
  omega

/-- Reads atoms with their quantifiers up to the end of their sequence. -/
def sequence (size : Nat) (cs : List Char) : Except Fault (Read cs.length (List Pattern)) :=
  match cs with
  | [] => .ok (.keep [] [])
  | c :: cs =>
    if endsSequence (c :: cs) then .ok (.keep [] (c :: cs))
    else if c = '$' ∧ cs = [] then .ok ⟨[], [], Nat.zero_le _⟩
    else
      match atom size c cs with
      | .error fault => .error fault
      | .ok a =>
        have ha := a.length_le
        match quantify size a.value a.rest with
        | .error fault => .error fault
        | .ok q =>
          have hq := q.length_le
          (sequence size q.rest).map fun more =>
            (more.map (q.value :: ·)).widen (by simp only [List.length_cons]; omega)
termination_by (cs.length, 1)
decreasing_by
  · apply Prod.Lex.right
    omega
  · apply Prod.Lex.left
    simp only [List.length_cons]
    omega

/-- Reads sequences with bars between them. -/
def alternatives (size : Nat) (cs : List Char) : Except Fault (Read cs.length (List Pattern)) :=
  match sequence size cs with
  | .error fault => .error fault
  | .ok s =>
    have hs := s.length_le
    match hrest : s.rest with
    | '|' :: rest =>
      have : rest.length < cs.length := by
        rw [hrest, List.length_cons] at hs; omega
      (alternatives size rest).map fun more =>
        (more.map (.sequence s.value :: ·)).widen (by omega)
    | rest => .ok ⟨[.sequence s.value], rest, by rw [hrest] at hs; exact hs⟩
termination_by (cs.length, 2)

/-- Reads an alternation. -/
def alternation (size : Nat) (cs : List Char) : Except Fault (Read cs.length Pattern) :=
  (alternatives size cs).map fun r => r.map Pattern.alternation
termination_by (cs.length, 3)

end

/-- The pattern that a text spells. -/
def Pattern.parse (text : String) : Except Fault Pattern := do
  let cs := text.toList
  let body := match cs with
    | '^' :: rest => rest
    | cs => cs
  let r ← Regex.alternation cs.length body
  if r.rest.isEmpty then return r.value
  else throw (.unmatchedClose (cs.length - r.rest.length))

end ConstrainedDecoding.Regex
