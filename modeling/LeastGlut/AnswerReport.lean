/-
# Reports of an answer-set solver

A solver reports each better answer set as it finds it: a line `Answer:`, the
answer's terms on the line behind it, and a line with the answer's cost. A
report vouches for its last answer when it says that the optimum was found;
a report that says there is no answer set has none.

Key definitions: `AnswerReport`, `AnswerReport.scan`, `Answer.ofReport`.
-/
import LeastGlut.SolveError
import LeastGlut.Text.Lines

namespace LeastGlut

/-- The terms that a solver shows of a least answer set, and their cost. -/
structure Answer where
  cost : Nat
  terms : List Term

/-- What has been read of a report: the last answer line, the first word of the
cost reported after it, and whether the optimum was found. -/
structure AnswerReport where
  answer : Option (List Char)
  cost : Option (List Char)
  optimum : Bool
  deriving DecidableEq

namespace AnswerReport

def empty : AnswerReport := ⟨none, none, false⟩

/-- What a line says, by its text without the blanks around it. -/
inductive Line
  | answer
  | cost (word : Option (List Char))
  | optimum
  | unsatisfiable
  | other
  deriving DecidableEq

/-- The text behind a keyword that a text starts with. -/
def after? (keyword text : List Char) : Option (List Char) :=
  if keyword.isPrefixOf text then some (text.drop keyword.length) else none

def Line.ofText (line : List Char) : Line :=
  let text := Text.trim line
  if (after? "Answer:".toList text).isSome then .answer
  else match after? "Optimization:".toList text with
    | some rest => .cost (Text.firstWord? rest)
    | none =>
      if text = "OPTIMUM FOUND".toList then .optimum
      else if text = "UNSATISFIABLE".toList then .unsatisfiable
      else .other

/-- Reads the lines of a report; a later answer replaces an earlier one and its cost. -/
def scan (r : AnswerReport) : List (List Char) → Except SolverFailure AnswerReport
  | [] => .ok r
  | line :: rest => match Line.ofText line with
    | .answer => match rest with
      | [] => .ok { r with answer := some [], cost := none }
      | terms :: rest => scan { r with answer := some terms, cost := none } rest
    | .cost word => scan { r with cost := word } rest
    | .optimum => scan { r with optimum := true } rest
    | .unsatisfiable => .error .noAnswerSet
    | .other => scan r rest

end AnswerReport

/-- A number in decimal digits, at most the greatest unsigned 64-bit word; a
plus sign may precede it. -/
def costOfWord? (word : List Char) : Option Nat :=
  let digits := match word with
    | '+' :: rest => rest
    | _ => word
  if digits.isEmpty || !digits.all Char.isDigit then none
  else
    let n := digits.foldl (fun n c => n * 10 + (c.toNat - '0'.toNat)) 0
    if n ≤ 18446744073709551615 then some n else none

namespace Answer

/-- The cost reported for an answer; an answer without one costs nothing. -/
def costOf : Option (List Char) → Except SolverFailure Nat
  | none => .ok 0
  | some word => match costOfWord? word with
    | some n => .ok n
    | none => .error (.invalidCost (String.ofList word))

/-- The terms of an answer line. -/
def termsOf (line : List Char) : Except SolverFailure (List Term) :=
  match Term.readLine line with
  | .ok terms => .ok terms
  | .error span => .error (.unreadableAnswer (String.ofList line) span)

/-- The last answer of a report, once it is proven least. -/
def ofReport (text : String) : Except SolverFailure Answer := do
  let r ← AnswerReport.empty.scan (Text.lines text.toList)
  match r.answer with
  | none => throw .noAnswerReported
  | some line =>
    if !r.optimum then throw .notProvenOptimal
    let cost ← costOf r.cost
    let terms ← termsOf line
    return ⟨cost, terms⟩

end Answer
end LeastGlut
