/-
# Clauses over signed atoms

A formula in conjunctive normal form is a list of clauses, each a list of
atoms with a sign. A disjunct that is true drops its clause and one that is
false is left out, so a formula that cannot hold gives an empty clause. A
formula of any other shape is refused with the leftmost part that breaks it.

Key definitions: `SignedAtom`, `Formula.literals`, `Formula.clauses`,
`Formula.signedClauses`.
-/
import LeastGlut.Clause
import LeastGlut.NormalForm

namespace LeastGlut

structure SignedAtom where
  atom : String
  positive : Bool
  deriving DecidableEq

abbrev SignedClause := List SignedAtom

namespace Formula

/-- The literals of a disjunction, or nothing if one of its disjuncts is true. -/
def literals : Formula → Except EncodeError (Option SignedClause)
  | atom name => .ok (some [⟨name, true⟩])
  | not (atom name) => .ok (some [⟨name, false⟩])
  | verum => .ok none
  | falsum => .ok (some [])
  | binary .or lhs rhs => do
    let l ← lhs.literals
    let r ← rhs.literals
    return match l, r with
      | some c, some d => some (c ++ d)
      | _, _ => none
  | f => .error (.malformedClause f)

/-- The clauses of a conjunction of disjunctions, in order. -/
def clauses : Formula → Except EncodeError (List SignedClause)
  | binary .and lhs rhs => do
    let l ← lhs.clauses
    let r ← rhs.clauses
    return l ++ r
  | f => f.literals.map Option.toList

/-- The clauses of a formula by way of its conjunctive normal form. -/
def signedClauses (f : Formula) : Except EncodeError (List SignedClause) := f.cnf.clauses

end Formula
end LeastGlut
