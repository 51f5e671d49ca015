/-
# Weighted clauses as text

The classic WCNF format: a header `p wcnf` with the number of variables, the
number of clauses and the top weight, then a line for each clause with its
weight, its literals and a closing `0`. A clause whose weight is the top
weight is hard. Hard clauses come first.

Key definitions: `WeightedClauses.wcnf`.
-/
import LeastGlut.WeightedClauses

namespace LeastGlut
namespace WeightedClauses

/-- The line of one clause. -/
def wcnfLine (weight : Weight) (c : Clause) : String :=
  " ".intercalate (toString weight :: c.map (fun l : Literal => toString l) ++ ["0"]) ++ "\n"

def wcnfHeader (w : WeightedClauses) : String :=
  "p wcnf " ++ toString w.varCount ++ " " ++ toString (w.hard.length + w.soft.length) ++ " "
    ++ toString w.topWeight ++ "\n"

def wcnf (w : WeightedClauses) : String :=
  w.wcnfHeader ++ String.join (w.hard.map (wcnfLine w.topWeight))
    ++ String.join (w.soft.map fun (c, weight) => wcnfLine weight c)

end WeightedClauses
end LeastGlut
