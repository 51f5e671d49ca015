/-
# Solving knowledge bases

A knowledge base is solved through weighted clauses and their optimum, or
through a program of facts and the run of an answer-set solver on it. A run
is good only when the solver has searched everything, which it says by its
exit code.

Key definitions: `KnowledgeBase.solveClausesBy`, `KnowledgeBase.solveClauses`, `SolverRun`,
`Answer.ofRun`, `KnowledgeBase.solveProgram`.
-/
import LeastGlut.Interpretation
import LeastGlut.Program.Facts
import LeastGlut.Text.Utf8

namespace LeastGlut

/-- Solves through weighted clauses, by the models of an oracle. -/
def KnowledgeBase.solveClausesBy (oracle : Oracle) (kb : KnowledgeBase) (form : ClauseForm) :
    Except SolveError Solution := do
  let e ← (kb.encode form).mapError SolveError.encode
  let o ← (e.clauses.optimumBy oracle).mapError SolveError.solver
  e.interpret o

/-- Solves through weighted clauses. -/
def KnowledgeBase.solveClauses (kb : KnowledgeBase) (form : ClauseForm) :
    Except SolveError Solution := kb.solveClausesBy .splitting form

/-- Solves through a program, whose least answer set an engine finds. -/
def KnowledgeBase.solveProgram (kb : KnowledgeBase) (engine : Program → Except SolverFailure Answer) :
    Except SolveError Solution := do
  let a ← (engine (.ofKnowledgeBase kb)).mapError SolveError.solver
  kb.interpret a

/-- What comes of starting a solver. -/
inductive SolverRun
  | notFound
  /-- The system could not start it, feed it or wait for it. -/
  | broken (reason : String)
  | exited (code : Nat) (output errors : List UInt8)
  /-- A signal ended it, so there is no exit code. -/
  | killed (signal : Nat) (coreDumped : Bool) (output errors : List UInt8)

/-- The longest name of a file in bytes, and the length that no path reaches. -/
def maxNameBytes : Nat := 255
def maxPathBytes : Nat := 4096

/-- Whether a path is too long, or the first name on it that leads anywhere is. -/
def isTooLong (path : String) : Bool :=
  let names := ((path.toList.splitOn '/').map String.ofList).filter fun name =>
    name != "" && name != "." && name != ".."
  maxPathBytes ≤ path.utf8ByteSize || names.head?.any fun name => maxNameBytes < name.utf8ByteSize

/-- Why no program can stand at a path. -/
def pathFailure? (path : String) : Option SolverFailure :=
  if path.toList.contains '\x00' then some (.nulInPath path)
  else if isTooLong path then some (.pathTooLong path)
  else none

/-- The exit code for an answer found with nothing left to search. -/
def exhausted : Nat := 30

/-- The answer of a solver's run. -/
def Answer.ofRun (path : String) : SolverRun → Except SolverFailure Answer
  | .notFound => .error (.notFound path)
  | .broken reason => .error (.broken path reason)
  | .exited code output _ => do
    let a ← Answer.ofReport (Text.decodeLossy output)
    if code ≠ exhausted then throw (.exitStatus code)
    return a
  | .killed signal coreDumped output _ => do
    let _ ← Answer.ofReport (Text.decodeLossy output)
    throw (.killed signal coreDumped)

/-- The engine that runs the solver at a path on the program's text. -/
def SolverRun.engine (path : String) (run : String → SolverRun) (p : Program) :
    Except SolverFailure Answer :=
  match pathFailure? path with
  | some failure => .error failure
  | none => Answer.ofRun path (run p.text)

end LeastGlut
