/-
# Terms of an answer-set solver

The ground terms that a solver prints: numbers, strings, and functions with
arguments. A function without arguments is a constant.

Key definitions: `Term`, `Term.display`.
-/
import LeastGlut.Program

namespace LeastGlut

/-- A ground term; numbers are signed 64-bit. -/
inductive Term
  | number (n : Int)
  | text (s : String)
  | function (name : String) (args : List Term)
  deriving Inhabited

namespace Term

/-- The least and the greatest number a term can hold. -/
def numberMin : Int := -9223372036854775808
def numberMax : Int := 9223372036854775807

mutual

/-- A term as the solver writes it. -/
def display : Term → String
  | number n => toString n
  | text s => quoteTerm s
  | function name [] => name
  | function name (arg :: args) => name ++ "(" ++ arg.display ++ displayRest args ++ ")"

/-- The arguments behind the first, each behind a comma. -/
def displayRest : List Term → String
  | [] => ""
  | arg :: args => "," ++ arg.display ++ displayRest args

end

end Term
end LeastGlut
