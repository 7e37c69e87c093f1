import ConstrainedDecoding.Text.Quoted

/-!
# Options of the schema conversion
-/
namespace ConstrainedDecoding.Schema

/-- How JSON texts are laid out and how strictly a schema is read. -/
structure Options where
  /-- White space may stand between tokens; then indentation is ignored, and separators count
  without the white space at their ends. -/
  anyWhitespace : Bool
  /-- Spaces of indentation per level; without it all stands on one line. -/
  indent : Option Nat
  /-- The separators of items and of keys and values. -/
  separators : Option (String × String)
  /-- What a schema does not mention is not allowed. -/
  strict : Bool
  /-- The longest run of white space. -/
  maxWhitespace : Option Nat
  /-- Asks for a log entry; it changes no grammar. -/
  logged : Bool
  deriving DecidableEq

/-- White space anywhere, and strict. -/
def Options.default : Options := ⟨true, none, none, true, none, false⟩

/-! ## How options are shown -/

/-- A value that may be missing, with its own way to be shown. -/
def shownOption {α : Type} (shown : α → String) : Option α → String
  | none => "None"
  | some x => "Some(" ++ shown x ++ ")"

/-- Two texts, each between quotes. -/
def shownTexts (texts : String × String) : String :=
  "(" ++ Text.quoted texts.1 ++ ", " ++ Text.quoted texts.2 ++ ")"

/-- Options with the names and values of their fields, on one line. -/
def Options.shown (o : Options) : String :=
  "JsonSchemaOptions \x7b any_whitespace: " ++ toString o.anyWhitespace ++
    ", indent: " ++ shownOption toString o.indent ++
    ", separators: " ++ shownOption shownTexts o.separators ++
    ", strict_mode: " ++ toString o.strict ++
    ", max_whitespace: " ++ shownOption toString o.maxWhitespace ++
    ", debug_dump: " ++ toString o.logged ++ " \x7d"

end ConstrainedDecoding.Schema
