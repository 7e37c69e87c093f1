import ConstrainedDecoding.Ebnf.Source
import ConstrainedDecoding.Schema.Options

/-!
# Layout of JSON texts

A layout says what stands around and between the parts of arrays and objects, as sources to be put
in sequence.
-/
namespace ConstrainedDecoding.Schema

open Ebnf (Source)

/-- How the punctuation between JSON tokens is laid out. -/
inductive Layout
  /-- White space around every token, by the rule `ws`. -/
  | anyWhitespace (item keyValue : String)
  /-- Exactly the separators, with line breaks and indentation if that is given. -/
  | fixed (item keyValue : String) (indent : Option Nat)
  deriving DecidableEq

namespace Layout

/-- The layout that options ask for. -/
def ofOptions (o : Options) : Layout :=
  let (item, keyValue) := match o.separators with
    | some separators => separators
    | none =>
      if o.indent.isSome then (",", ": ") else if o.anyWhitespace then (",", ":") else (", ", ": ")
  if o.anyWhitespace then .anyWhitespace (Text.trim item) (Text.trim keyValue)
  else .fixed item keyValue o.indent

/-- The line break and indentation of a level, if the layout has them. -/
def newline? (l : Layout) (depth : Nat) : Option String :=
  match l with
  | .fixed _ _ (some n) => some ("\n" ++ String.ofList (List.replicate (n * depth) ' '))
  | _ => none

def blanks : Source := .name "ws"

/-- The opening bracket of a container at a level. -/
def opening (l : Layout) (bracket : String) (depth : Nat) : List Source :=
  match l, l.newline? (depth + 1) with
  | .anyWhitespace .., _ => [.literal bracket, blanks]
  | _, some newline => [.literal (bracket ++ newline)]
  | _, none => [.literal bracket]

/-- The closing bracket of a container at a level. -/
def closing (l : Layout) (bracket : String) (depth : Nat) : List Source :=
  match l, l.newline? depth with
  | .anyWhitespace .., _ => [blanks, .literal bracket]
  | _, some newline => [.literal (newline ++ bracket)]
  | _, none => [.literal bracket]

/-- A container without contents. -/
def emptyContainer (l : Layout) (opening closing : String) : List Source :=
  match l with
  | .anyWhitespace .. => [.literal opening, blanks, .literal closing]
  | .fixed .. => [.literal (opening ++ closing)]

/-- What stands between two items of a container at a level. -/
def itemSeparator (l : Layout) (depth : Nat) : List Source :=
  match l, l.newline? (depth + 1) with
  | .anyWhitespace item _, _ => [blanks, .literal item, blanks]
  | .fixed item _ _, some newline => [.literal (Text.trimEnd item ++ newline)]
  | .fixed item _ _, none => [.literal item]

/-- What stands between a key and its value. -/
def keyValueSeparator (l : Layout) : List Source :=
  match l with
  | .anyWhitespace _ keyValue => [blanks, .literal keyValue, blanks]
  | .fixed _ keyValue _ => [.literal keyValue]

/-- The layout of values without a schema, which are never broken into lines. -/
def flat : Layout → Layout
  | .fixed item keyValue _ => .fixed item keyValue none
  | l => l

end Layout

end ConstrainedDecoding.Schema
