/-
# Consequences

A consequence of clauses and quotas is a clause that holds in every model of
the clauses that keeps within some of the quotas; it lists the quotas it needs.
Two consequences resolve on a variable: where one needs the variable to be
true and the other needs it to be false, what is left of the two holds too.

A search that fails says why by a consequence of which every literal is false
where the search stands. With nothing decided, that is the empty clause.

Key definitions: `Consequence`, `Consequence.resolve`, `Consequence.explain`.
-/
import LeastGlut.Clause

namespace LeastGlut

structure Consequence where
  clause : Clause
  /-- The names of the quotas it needs. -/
  quotas : List Ident
  deriving DecidableEq

/-- The elements of two lists, with no element of the first repeated. -/
def joinDistinct (xs ys : List Int) : List Int := xs ++ ys.filter fun y => !xs.contains y

namespace Consequence

/-- The consequence that a literal holds or does not. -/
def choice (l : Literal) : Consequence := ⟨[l, -l], []⟩

/-- Replaces the need that `l` be false by the other needs of a consequence
that makes it true. -/
def resolve (c : Consequence) (l : Literal) (reason : Consequence) : Consequence :=
  if c.clause.contains (-l) then
    ⟨joinDistinct (c.clause.filter (· != -l)) (reason.clause.filter (· != l)),
      c.quotas ++ reason.quotas.filter fun i => !c.quotas.contains i⟩
  else c

/-- Resolves on each of some literals with the reason why it holds. -/
def explain (c : Consequence) (reasons : List (Literal × Consequence)) : Consequence :=
  reasons.foldl (fun c (l, reason) => c.resolve l reason) c

end Consequence
end LeastGlut
