/-
# Solutions

A solution is a least inconsistent model of a knowledge base: a value for
every atom, and the formulas that a glut makes inconsistent.

Key definitions: `Solution`, `Solution.display`, `Solution.valueOf?`.
-/
import LeastGlut.Strategy
import LeastGlut.Truth

namespace LeastGlut

/-- An atom and its value. -/
structure Solution.Entry where
  atom : String
  value : Truth
  deriving DecidableEq

def Solution.Entry.display (e : Solution.Entry) : String := e.atom ++ ":" ++ e.value.name

structure Solution where
  strategy : Strategy
  /-- The number of inconsistent formulas. -/
  cost : Nat
  /-- The identifiers of the inconsistent formulas. -/
  inconsistent : List Nat
  valuation : List Solution.Entry
  deriving DecidableEq

namespace Solution

/-- The first value listed for an atom. -/
def valueOf? (s : Solution) (atom : String) : Option Truth :=
  (s.valuation.find? fun e => e.atom = atom).map (·.value)

/-- The atoms that are gluts. -/
def gluts (s : Solution) : List String :=
  (s.valuation.filter fun e => e.value = .b).map (·.atom)

def display (s : Solution) : String :=
  s.strategy.name ++ " IFC: " ++ toString s.cost
    ++ ", InconsistentFormulas: ["
    ++ ", ".intercalate (s.inconsistent.map fun id => "F" ++ toString id)
    ++ "], Atoms: [" ++ ", ".intercalate (s.valuation.map Solution.Entry.display) ++ "]"

end Solution
end LeastGlut
