/-
# Weighted clauses

Hard clauses must hold; a soft clause that does not hold costs its weight.
Clauses range over the variables `1` to `varCount`. Weights and their totals
are unsigned 64-bit words, so a total from `2 ^ 64` on wraps round.

Key definitions: `WeightedClauses`, `Weight.total`, `WeightedClauses.cost`,
`WeightedClauses.topWeight`, `Stats`.
-/
import LeastGlut.Clause

namespace LeastGlut

abbrev Weight := Nat

/-- The unsigned 64-bit word that a number has the low bits of. -/
def Weight.word (n : Nat) : Weight := n % 18446744073709551616

def Weight.total (weights : List Weight) : Weight := Weight.word (weights.foldr (· + ·) 0)

structure WeightedClauses where
  hard : List Clause
  soft : List (Clause × Weight)
  varCount : Nat
  deriving DecidableEq, Inhabited

/-- The sizes of a set of weighted clauses. -/
structure Stats where
  vars : Nat
  hard : Nat
  soft : Nat
  deriving DecidableEq

def Stats.display (s : Stats) : String :=
  toString s.vars ++ " variables, " ++ toString s.hard ++ " hard clauses, "
    ++ toString s.soft ++ " soft clauses"

namespace WeightedClauses

/-- One more than the total weight, so above the cost of every assignment. -/
def topWeight (w : WeightedClauses) : Weight := Weight.word (Weight.total (w.soft.map (·.2)) + 1)

/-- The total weight of the soft clauses that do not hold. -/
def cost (w : WeightedClauses) (v : Ident → Bool) : Weight :=
  Weight.total ((w.soft.filter fun (c, _) => !c.holds v).map (·.2))

/-- The number of hard clauses that do not hold. -/
def hardViolated (w : WeightedClauses) (v : Ident → Bool) : Nat :=
  w.hard.countP fun c => !c.holds v

def stats (w : WeightedClauses) : Stats := ⟨w.varCount, w.hard.length, w.soft.length⟩

end WeightedClauses
end LeastGlut
