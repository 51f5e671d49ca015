/-
# Normal forms

Four steps lead to conjunctive normal form: equivalences become two
implications, implications become disjunctions, negations move down to the
atoms, and disjunctions are distributed over conjunctions. No new atoms are
introduced, so the result may be exponentially larger.

Moving negations down also expands the implications and equivalences it
meets, so it needs no earlier step. Distribution joins operands that are
already distributed; such trees stay as they are when distributed again, and
so joining is recursion on the operands alone.

Key definitions: `Formula.expandIff`, `Formula.expandImplies`,
`Formula.nnf`, `Formula.distribute`, `Formula.cnf`.
-/
import LeastGlut.Formula

namespace LeastGlut
namespace Formula

/-- `a <=> b` becomes `(a => b) && (b => a)`. -/
def expandIff : Formula → Formula
  | atom name => atom name
  | verum => verum
  | falsum => falsum
  | not inner => not inner.expandIff
  | binary .iff lhs rhs =>
    let l := lhs.expandIff
    let r := rhs.expandIff
    and (implies l r) (implies r l)
  | binary op lhs rhs => binary op lhs.expandIff rhs.expandIff

/-- `a => b` becomes `!a || b`. -/
def expandImplies : Formula → Formula
  | atom name => atom name
  | verum => verum
  | falsum => falsum
  | not inner => not inner.expandImplies
  | binary .implies lhs rhs => or (not lhs.expandImplies) rhs.expandImplies
  | binary op lhs rhs => binary op lhs.expandImplies rhs.expandImplies

/-- The formula, or its negation when `positive` is false, with negations on
atoms only and with `&&` and `||` as its only connectives. -/
def signed (positive : Bool) : Formula → Formula
  | atom name => if positive then atom name else not (atom name)
  | verum => if positive then verum else falsum
  | falsum => if positive then falsum else verum
  | not inner => inner.signed (!positive)
  | binary .and lhs rhs =>
    binary (if positive then .and else .or) (lhs.signed positive) (rhs.signed positive)
  | binary .or lhs rhs =>
    binary (if positive then .or else .and) (lhs.signed positive) (rhs.signed positive)
  | binary .implies lhs rhs =>
    binary (if positive then .or else .and) (lhs.signed (!positive)) (rhs.signed positive)
  | binary .iff lhs rhs =>
    if positive then
      and (or (lhs.signed false) (rhs.signed true)) (or (rhs.signed false) (lhs.signed true))
    else
      or (and (lhs.signed true) (rhs.signed false)) (and (rhs.signed true) (lhs.signed false))

/-- Moves negations down to the atoms; double negations cancel and negated
constants are folded. -/
def nnf (f : Formula) : Formula := f.signed true

/-- The disjunction of `l`, which is no conjunction, with each conjunct on the right. -/
def joinRight (l : Formula) : Formula → Formula
  | binary .and r r' => and (joinRight l r) (joinRight l r')
  | r => or l r

/-- The disjunction of two distributed formulas, conjuncts of the left one outermost. -/
def join : Formula → Formula → Formula
  | binary .and l l', r => and (join l r) (join l' r)
  | l, r => joinRight l r

/-- Distributes disjunctions over the conjunctions below them. -/
def distribute : Formula → Formula
  | binary .or lhs rhs => join lhs.distribute rhs.distribute
  | binary .and lhs rhs => and lhs.distribute rhs.distribute
  | f => f

/-- A conjunction of disjunctions of literals and constants. -/
def cnf (f : Formula) : Formula := f.expandIff.expandImplies.nnf.distribute

end Formula
end LeastGlut
