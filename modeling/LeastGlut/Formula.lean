/-
# Propositional formulas

Formulas are immutable trees over named atoms, the two constants, negation
and four binary connectives. `Formula.eval` gives the value of a formula in
the chain of `Truth`; `Formula.display` writes it fully bracketed on one line.

Key definitions: `Connective`, `Formula`, `Formula.eval`, `Formula.atoms`,
`Formula.display`.
-/
import LeastGlut.Truth

namespace LeastGlut

inductive Connective
  | and
  | or
  | implies
  | iff
  deriving DecidableEq, Inhabited

namespace Connective

/-- Every connective, from the one that binds tightest to the loosest. -/
def all : List Connective := [and, or, implies, iff]

def symbol : Connective → String
  | and => "&&"
  | or => "||"
  | implies => "=>"
  | iff => "<=>"

/-- Implication chains group to the right, all others to the left. -/
def groupsRight : Connective → Bool
  | implies => true
  | _ => false

/-- How tightly a connective binds its operands. -/
def tightness : Connective → Nat
  | and => 4
  | or => 3
  | implies => 2
  | iff => 1

def ofSymbol? (s : String) : Except NameError Connective :=
  match all.find? (fun op => op.symbol = s) with
  | some op => .ok op
  | none => .error .unmatched

/-- The value of a compound from the values of its operands. -/
def apply : Connective → Truth → Truth → Truth
  | and, x, y => x.meet y
  | or, x, y => x.join y
  | implies, x, y => x.neg.join y
  | iff, x, y => (x.neg.join y).meet (y.neg.join x)

end Connective

inductive Formula
  | atom (name : String)
  | verum
  | falsum
  | not (inner : Formula)
  | binary (op : Connective) (lhs rhs : Formula)
  deriving DecidableEq, Inhabited

namespace Formula

@[match_pattern] abbrev and (lhs rhs : Formula) : Formula := .binary .and lhs rhs
@[match_pattern] abbrev or (lhs rhs : Formula) : Formula := .binary .or lhs rhs
@[match_pattern] abbrev implies (lhs rhs : Formula) : Formula := .binary .implies lhs rhs
@[match_pattern] abbrev iff (lhs rhs : Formula) : Formula := .binary .iff lhs rhs

/-- The atom at each leaf that holds one, left to right, with repeats. -/
def leaves : Formula → List String
  | atom name => [name]
  | verum => []
  | falsum => []
  | not inner => inner.leaves
  | binary _ lhs rhs => lhs.leaves ++ rhs.leaves

/-- Every atom once, in order of first occurrence. -/
def atoms (f : Formula) : List String := f.leaves.eraseDups

/-- The number of nodes. -/
def size : Formula → Nat
  | atom _ => 1
  | verum => 1
  | falsum => 1
  | not inner => 1 + inner.size
  | binary _ lhs rhs => 1 + lhs.size + rhs.size

/-- The number of connectives on the longest path to a leaf. -/
def depth : Formula → Nat
  | atom _ => 0
  | verum => 0
  | falsum => 0
  | not inner => 1 + inner.depth
  | binary _ lhs rhs => 1 + max lhs.depth rhs.depth

/-- The value under a valuation of the atoms. -/
def eval (v : String → Truth) : Formula → Truth
  | atom name => v name
  | verum => .t
  | falsum => .f
  | not inner => (inner.eval v).neg
  | binary op lhs rhs => op.apply (lhs.eval v) (rhs.eval v)

/-- One line of text with every compound in brackets. -/
def display : Formula → String
  | atom name => name
  | verum => "+"
  | falsum => "-"
  | not inner => "!(" ++ inner.display ++ ")"
  | binary op lhs rhs => "(" ++ lhs.display ++ " " ++ op.symbol ++ " " ++ rhs.display ++ ")"

end Formula
end LeastGlut
