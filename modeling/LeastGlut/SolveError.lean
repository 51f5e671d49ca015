/-
# Failures of solving

What can go wrong between a knowledge base and its solution: an engine finds
no answer, or one that cannot be read or does not fit its own cost; an answer
names what the knowledge base does not hold; an answer gives an atom no value
or several.

Key definitions: `SolverFailure`, `SolveError`, `SolveError.message`.
-/
import LeastGlut.Clause
import LeastGlut.Term.Reader
import LeastGlut.Truth

namespace LeastGlut

/-- Why an engine's run gives no answer. -/
inductive SolverFailure
  | emptyHardClause
  | unsatisfiable
  /-- The cost reported is not the cost of the model. -/
  | modelCost (reported actual : Nat)
  /-- The cost reported is not the number of inconsistent formulas. -/
  | inconsistentCount (reported actual : Nat)
  | noAnswerSet
  | noAnswerReported
  | notProvenOptimal
  | invalidCost (word : String)
  | unreadableAnswer (line : String) (span : Term.Span)
  | exitStatus (code : Nat)
  /-- A signal ended the solver. -/
  | killed (signal : Nat) (coreDumped : Bool)
  | notFound (path : String)
  /-- The system could not start the solver, feed it or wait for it. -/
  | broken (path reason : String)
  | nulInPath (path : String)
  | pathTooLong (path : String)
  deriving DecidableEq

/-- The signals that have names, by number, from one on. -/
def signalNames : List String :=
  ["SIGHUP", "SIGINT", "SIGQUIT", "SIGILL", "SIGTRAP", "SIGABRT", "SIGBUS", "SIGFPE", "SIGKILL",
    "SIGUSR1", "SIGSEGV", "SIGUSR2", "SIGPIPE", "SIGALRM", "SIGTERM", "SIGSTKFLT", "SIGCHLD",
    "SIGCONT", "SIGSTOP", "SIGTSTP", "SIGTTIN", "SIGTTOU", "SIGURG", "SIGXCPU", "SIGXFSZ",
    "SIGVTALRM", "SIGPROF", "SIGWINCH", "SIGIO", "SIGPWR", "SIGSYS"]

/-- The name of a signal in brackets, if it has one. -/
def signalLabel (signal : Nat) : String :=
  match ("" :: signalNames)[signal]? with
  | none | some "" => ""
  | some name => " (" ++ name ++ ")"

def SolverFailure.reason : SolverFailure → String
  | emptyHardClause => "hard clauses contain the empty clause"
  | unsatisfiable => "hard clauses are unsatisfiable"
  | modelCost reported actual =>
    "engine reported cost " ++ toString reported ++ " but its model costs " ++ toString actual
  | inconsistentCount reported actual =>
    "engine reported cost " ++ toString reported ++ " but " ++ toString actual
      ++ " formulas are inconsistent"
  | noAnswerSet => "logic program has no answer set"
  | noAnswerReported => "clingo reported no answer set"
  | notProvenOptimal => "clingo stopped before proving an answer set optimal"
  | invalidCost word => "invalid optimization value " ++ Text.quoted word
  | unreadableAnswer line span =>
    "unparseable answer set " ++ Text.quoted line ++ " at [" ++ toString span.start ++ ".."
      ++ toString span.stop ++ "]"
  | exitStatus code =>
    "clingo exited with exit status: " ++ toString code ++ " after an optimal answer"
  | killed signal coreDumped =>
    "clingo exited with signal: " ++ toString signal ++ signalLabel signal
      ++ (if coreDumped then " (core dumped)" else "") ++ " after an optimal answer"
  | notFound path => Text.quoted path ++ ": No such file or directory (os error 2)"
  | broken path reason => Text.quoted path ++ ": " ++ reason
  | nulInPath path => Text.quoted path ++ ": nul byte found in provided data"
  | pathTooLong path => Text.quoted path ++ ": File name too long (os error 36)"

/-- What an answer names and the knowledge base does not hold. -/
inductive Unknown
  | symbol (t : Term)
  | truthValue (name : String)
  | atom (name : String)
  | formulaId (id : Int)

def Unknown.text : Unknown → String
  | symbol t => "symbol " ++ t.display
  | truthValue name => "truth value " ++ Text.quoted name
  | atom name => "atom " ++ Text.quoted name
  | formulaId id => "formula id " ++ toString id

inductive SolveError
  | solver (failure : SolverFailure)
  /-- An atom has no value in the model, or several. -/
  | values (atom : String) (found : List Truth)
  | unknown (what : Unknown)
  | encode (e : EncodeError)

def SolveError.message : SolveError → String
  | solver failure => "solver failure: " ++ failure.reason
  | values atom found =>
    "atom " ++ Text.quoted atom ++ " has " ++ toString found.length
      ++ " truth values in the model: [" ++ ", ".intercalate (found.map Truth.title) ++ "]"
  | unknown what => "solver output names unknown " ++ what.text
  | encode e => e.message

end LeastGlut
