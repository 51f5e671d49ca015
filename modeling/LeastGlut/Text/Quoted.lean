/-
# Quoted text in messages

Messages show text from the input between quotes, so that each character can
be told: a quote and a backslash get a backslash, tab, line feed, carriage
return and NUL a letter, and any other character that cannot be shown alone
its code point in hexadecimal.

Key definitions: `escape`, `quoted`, `quotedChar`.
-/
import LeastGlut.Text.Combining
import LeastGlut.Text.Unprintable

namespace LeastGlut.Text

/-- One character in quoted text; `marks` are the quotes that need a backslash. -/
def escape (marks : List Char) (c : Char) : String :=
  if c = '\x00' then "\\0"
  else if c = '\t' then "\\t"
  else if c = '\r' then "\\r"
  else if c = '\n' then "\\n"
  else if c = '\\' || marks.contains c then "\\" ++ c.toString
  else if isUnprintable c || isCombining c || isIgnorable c then
    "\\u\x7b" ++ String.ofList (Nat.toDigits 16 c.toNat) ++ "\x7d"
  else c.toString

/-- Text between double quotes. -/
def quoted (s : String) : String :=
  "\"" ++ String.join (s.toList.map (escape ['"'])) ++ "\""

/-- A character between single quotes. -/
def quotedChar (c : Char) : String := "'" ++ escape ['\''] c ++ "'"

end LeastGlut.Text
