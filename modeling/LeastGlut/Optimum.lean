/-
# Least cost by improving models

An optimum of weighted clauses is found by improvement. Each unit of weight of
a soft clause is relaxed by a variable of its own, behind the variables of the
clauses: the clause and its relaxation variable make one hard clause, so the
variable is true wherever the clause does not hold. A first model of the
relaxed clauses gives a cost; from then on at most one less relaxation
variable than the best cost may be true, until there is no such model. The
models come from an oracle.

A relaxation variable needs an index from the pool, and so does every variable
of the clauses. What is said of an optimum is said of clauses that fit the pool.

Key definitions: `Outcome`, `WeightedClauses.FitsPool`, `WeightedClauses.check`,
`WeightedClauses.optimumBy`, `WeightedClauses.optimum`.
-/
import LeastGlut.IndexPool
import LeastGlut.Oracle
import LeastGlut.SolveError
import LeastGlut.WeightedClauses

namespace LeastGlut

/-- A cost, and an assignment that lists each variable of the clauses as the
literal that holds. -/
structure Outcome where
  cost : Nat
  assignment : List Literal
  deriving DecidableEq

namespace Outcome

/-- The literals of the first `n` variables that hold, for `n` up to `IndexPool.capacity`:
past it there are no variables, and the word at a place is not a literal of that place. -/
def listing (n : Nat) (v : Ident → Bool) : List Literal :=
  (List.range n).map fun i => Literal.of (i + 1) (v (i + 1))

/-- The identifiers of the positive literals. -/
def positive (o : Outcome) : List Ident := (o.assignment.filter (0 < ·)).map Int.natAbs

/-- The sign of the literal at an identifier's place; false beyond the list. -/
def valueIn (assignment : List Literal) (i : Ident) : Bool :=
  match i with
  | 0 => false
  | i + 1 => match assignment[i]? with
    | some l => decide (0 < l)
    | none => false

def value (o : Outcome) (i : Ident) : Bool := valueIn o.assignment i

end Outcome

namespace WeightedClauses

/-- The soft clauses, each as often as its weight. -/
def units (w : WeightedClauses) : List Clause :=
  w.soft.flatMap fun (c, weight) => List.replicate weight c

/-- There is an index for each variable of the clauses, and behind these one for each unit
of weight. -/
def FitsPool (w : WeightedClauses) : Prop := w.varCount + w.units.length ≤ IndexPool.capacity

instance (w : WeightedClauses) : Decidable w.FitsPool := inferInstanceAs (Decidable (_ ≤ _))

/-- Relaxes each clause by a variable of its own from a pool of indices; with
the clauses, the identifiers of these variables. Their literals go to the oracle alone, as
an index with a sign and not as a word, so they do not wrap round: they are literals of
variables as long as the pool has indices, which is what `FitsPool` says. -/
def relax (pool : IndexPool) : List Clause → List Clause × List Ident
  | [] => ([], [])
  | c :: cs =>
    let (index, pool) := pool.fresh
    let i : Ident := index + 1
    let (clauses, relaxed) := relax pool cs
    ((c ++ [(i : Int)]) :: clauses, i :: relaxed)

/-- The hard and the relaxed soft clauses, and the relaxation variables. -/
def relaxed (w : WeightedClauses) : List Clause × List Ident :=
  let (soft, relaxation) := relax (.behind w.varCount) w.units
  (w.hard ++ soft, relaxation)

section

variable (oracle : Oracle)

/-- The values of the variables of the clauses in a model of the relaxed clauses, with
at most `bound` relaxation variables true if there is a bound. -/
def check (w : WeightedClauses) (bound : Option Nat) : Option (List Literal) :=
  (oracle.model? w.relaxed.1 (bound.map (w.relaxed.2, ·))).map (Outcome.listing w.varCount)

/-- The outcome of an assignment, with the cost of the clauses under it. -/
def outcomeOf (w : WeightedClauses) (assignment : List Literal) : Outcome :=
  ⟨w.cost (Outcome.valueIn assignment), assignment⟩

/-- Looks for cheaper and cheaper models. -/
def improve (w : WeightedClauses) (best : Outcome) : Outcome :=
  if best.cost = 0 then best
  else match w.check oracle (some (best.cost - 1)) with
    | none => best
    | some assignment =>
      let better := w.outcomeOf assignment
      if better.cost < best.cost then w.improve better else best
termination_by best.cost

/-- An assignment under which every hard clause holds, at least cost, by the models of
an oracle, for clauses that fit the pool. -/
def optimumBy (w : WeightedClauses) : Except SolverFailure Outcome :=
  if w.hard.any List.isEmpty then .error .emptyHardClause
  else match w.check oracle none with
    | none => .error .unsatisfiable
    | some assignment => .ok (w.improve oracle (w.outcomeOf assignment))

end

/-- An assignment under which every hard clause holds, at least cost. -/
def optimum (w : WeightedClauses) : Except SolverFailure Outcome := w.optimumBy .splitting

end WeightedClauses
end LeastGlut
