/-
# Reading knowledge bases

Every line that is not blank holds one formula. The first line that holds
none is reported with its number and with the place of the fault in the whole
text, counted in characters.

Key definitions: `SyntaxError`, `SyntaxError.message`, `KnowledgeBase.read`.
-/
import LeastGlut.KnowledgeBase
import LeastGlut.Formula.Reader
import LeastGlut.Text.Lines
import LeastGlut.Text.Quoted

namespace LeastGlut

/-- A line that is neither blank nor a formula; `start` and `stop` count
characters of the whole text. -/
structure SyntaxError where
  line : Nat
  start : Nat
  stop : Nat
  found : Option Char
  expected : List (Option Char)
  deriving DecidableEq

namespace SyntaxError

/-- The fault of a line, moved to where the line stands in the text. -/
def ofFault (line offset : Nat) (e : Formula.Fault) : SyntaxError :=
  ⟨line, e.position + offset, e.stop + offset, e.found, e.expected⟩

/-- The same error in a text with more lines and characters in front. -/
def shift (lines chars : Nat) (e : SyntaxError) : SyntaxError :=
  { e with line := e.line + lines, start := e.start + chars, stop := e.stop + chars }

def itemText : Option Char → String
  | some c => Text.quotedChar c
  | none => "end of line"

/-- What was found, and what could have stood there. -/
def reason (e : SyntaxError) : String :=
  "unexpected " ++ itemText e.found ++
    if e.expected.isEmpty then ""
    else ", expected one of " ++ ", ".intercalate (e.expected.map itemText)

def message (e : SyntaxError) : String :=
  "syntax error on line " ++ toString e.line ++ ": " ++ e.reason

end SyntaxError

namespace KnowledgeBase

/-- A line without the line feeds and carriage returns at its end. -/
def lineBody (segment : List Char) : List Char :=
  Text.trimEnd (fun c => c == '\n' || c == '\r') segment

/-- The formula on a line, or nothing if the line is blank. -/
def readLine (body : List Char) : Except Formula.Fault (Option Formula) :=
  if body.all Text.isBlank then .ok none else (Formula.read body).map some

/-- Reads lines of which the first has number `line` and starts `offset`
characters into the text. -/
def readLines (line offset : Nat) : List (List Char) → Except SyntaxError (List Formula)
  | [] => .ok []
  | segment :: rest =>
    match readLine (lineBody segment) with
    | .error e => .error (.ofFault line offset e)
    | .ok found =>
      (readLines (line + 1) (offset + segment.length) rest).map (found.toList ++ ·)

/-- Reads a text as a knowledge base. -/
def read (text : String) : Except SyntaxError KnowledgeBase :=
  (readLines 1 0 (Text.segments text.toList)).map KnowledgeBase.mk

end KnowledgeBase
end LeastGlut
