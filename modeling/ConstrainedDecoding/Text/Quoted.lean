import ConstrainedDecoding.Text.Hexadecimal
import ConstrainedDecoding.Text.Unprintable

/-!
# Quoted text in messages

A message shows a text between double quotes. A quote, a backslash and the common controls are
written with a backslash, and a character without a visible form by its number.
-/
namespace ConstrainedDecoding.Text

/-- A character as it stands in a quoted text. -/
def quotedChar (c : Char) : String :=
  if c = '"' then "\\\""
  else if c = '\\' then "\\\\"
  else if c = '\n' then "\\n"
  else if c = '\r' then "\\r"
  else if c = '\t' then "\\t"
  else if c = '\x00' then "\\0"
  else if isUnprintable c then "\\u\x7b" ++ hex 0 c.toNat ++ "\x7d"
  else c.toString

/-- A text between double quotes, as messages show it. -/
def quoted (s : String) : String :=
  "\"" ++ s.foldl (fun out c => out ++ quotedChar c) "" ++ "\""

end ConstrainedDecoding.Text
