/-
# What the commands print

`encode` prints the encoding of one knowledge base, `solve` the solution of
each, and `compare` the cost that each strategy finds for each, with the
verdict whether they agree. A file that cannot be read or parsed fails the run
but stops no other file; lines stand in the order of the paths.

The world that a run sees is a value: the bytes of the files, and what comes
of starting a solver. The models of clauses come from an oracle.

Key definitions: `Cli.World`, `Cli.Result`, `Cli.runBy`, `Cli.run`.
-/
import LeastGlut.Cli.Arguments
import LeastGlut.KnowledgeBase.Reader
import LeastGlut.Solution.Json
import LeastGlut.Solving
import LeastGlut.WeightedClauses.Wcnf

namespace LeastGlut
namespace Cli

/-- What a run can read and start. -/
structure World where
  /-- The bytes of the file at a path. -/
  file? : String → Option (List UInt8)
  /-- Whether the solver at a path starts and tells its version. -/
  answersVersion : String → Bool
  /-- A run of the solver at a path on a text. -/
  solver : String → String → SolverRun

/-- What a run prints, and its exit code. -/
structure Result where
  exit : Nat
  output : String
  deriving DecidableEq

/-- The knowledge base in a file of well-formed text. -/
def World.load? (world : World) (path : String) : Option KnowledgeBase := do
  let bytes ← world.file? path
  let text ← Text.decode? bytes
  (KnowledgeBase.read text).toOption

/-- The encoding of a knowledge base as text. -/
def encodingText (kb : KnowledgeBase) (strategy : Strategy) : Except EncodeError String :=
  match strategy.clauseForm? with
  | some s => (kb.encode s).map fun e => e.clauses.wcnf
  | none => .ok (Program.ofKnowledgeBase kb).text

def World.solve (oracle : Oracle) (world : World) (kb : KnowledgeBase) (strategy : Strategy)
    (solver : String) : Except SolveError Solution :=
  match strategy.clauseForm? with
  | some s => kb.solveClausesBy oracle s
  | none => kb.solveProgram (SolverRun.engine solver (world.solver solver))

/-- The line of a solution. -/
def solutionLine (path : String) (format : Format) (s : Solution) : String :=
  match format with
  | .text => path ++ ": " ++ s.display ++ "\n"
  | .json => s.jsonRow path ++ "\n"

/-- What each strategy finds. -/
abbrev Findings := List (Strategy × Except SolveError Solution)

def World.findings (oracle : Oracle) (world : World) (kb : KnowledgeBase) (withSolver : Bool)
    (solver : String) : Findings :=
  (Strategy.all.filter fun s => withSolver || s != .asp).map fun s =>
    (s, world.solve oracle kb s solver)

namespace Findings

def text (found : Findings) : String :=
  " ".intercalate (found.map fun (s, result) => match result with
    | .ok solution => s.name ++ "=" ++ toString solution.cost
    | .error e => s.name ++ "=error(" ++ e.message ++ ")")

/-- Whether every strategy found a solution, all at one cost. -/
def agree (found : Findings) : Bool :=
  match found.mapM fun (_, result) => result.toOption.map Solution.cost with
  | none => false
  | some [] => true
  | some (cost :: costs) => costs.all (· == cost)

end Findings

/-- The line of a comparison. -/
def comparisonLine (path : String) (found : Findings) : String :=
  path ++ ": " ++ found.text ++ " " ++ (if found.agree then "agree" else "DISAGREE") ++ "\n"

/-- One step of a run: the line to print for a path, if there is one, and
whether the path is in order. -/
structure Step where
  line : String
  good : Bool

/-- The lines of the steps; the run succeeds when every step is good. -/
def Result.ofSteps (steps : List Step) : Result :=
  ⟨if steps.all Step.good then 0 else 1, String.join (steps.map Step.line)⟩

section

variable (oracle : Oracle) (world : World)

def solveStep (strategy : Strategy) (format : Format) (solver path : String) : Step :=
  match world.load? path with
  | none => ⟨"", false⟩
  | some kb => match world.solve oracle kb strategy solver with
    | .ok s => ⟨solutionLine path format s, true⟩
    | .error _ => ⟨"", false⟩

def compareStep (solver path : String) : Step :=
  match world.load? path with
  | none => ⟨"", false⟩
  | some kb =>
    let found := world.findings oracle kb (world.answersVersion solver) solver
    ⟨comparisonLine path found, found.agree⟩

def runCommand : Command → Result
  | .encode path strategy => match world.load? path with
    | none => ⟨1, ""⟩
    | some kb => match encodingText kb strategy with
      | .ok text => ⟨0, text⟩
      | .error _ => ⟨1, ""⟩
  | .solve paths strategy format solver =>
    .ofSteps (paths.map (solveStep oracle world strategy format solver))
  | .compare paths solver => .ofSteps (paths.map (compareStep oracle world solver))

/-- Runs a command line by the models of an oracle; one that is refused exits with 2. -/
def runBy (words : List String) : Result :=
  match parse words with
  | .ok command => runCommand oracle world command
  | .error _ => ⟨2, ""⟩

end

/-- Runs a command line. -/
def run (world : World) (words : List String) : Result := runBy .splitting world words

end Cli
end LeastGlut
