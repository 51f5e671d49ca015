/-
# Identifiers, literals and clauses

An identifier is a positive number that names a Boolean variable. A literal
is an identifier with a sign, held in a signed 32-bit word: identifiers past
the largest positive word wrap round, and so does the negation of the least
word. Below `2 ^ 31` a literal is the identifier or its negative.

Making clauses of formulas fails where an atom has no identifier, or where a
formula has no place in a clause.

Key definitions: `Ident`, `Literal.of`, `Literal.flip`, `Clause.holds`,
`Supply`, `EncodeError`.
-/
import LeastGlut.Formula
import LeastGlut.Text.Quoted

namespace LeastGlut

abbrev Ident := Nat

abbrev Literal := Int

/-- The signed 32-bit word that a number has the low bits of. -/
def Literal.word (n : Int) : Literal := n.bmod 4294967296

def Literal.flip (l : Literal) : Literal := Literal.word (-l)

/-- The literal of an identifier with a sign. -/
def Literal.of (i : Ident) (positive : Bool) : Literal :=
  if positive then Literal.word i else (Literal.word i).flip

/-- Whether a literal agrees with an assignment of the identifiers. -/
def Literal.holds (v : Ident → Bool) (l : Literal) : Bool := v l.natAbs == decide (0 < l)

abbrev Clause := List Literal

def Clause.holds (v : Ident → Bool) (c : Clause) : Bool := c.any (Literal.holds v)

/-- How many identifiers have been given out; the next one is one more. -/
structure Supply where
  issued : Nat
  deriving DecidableEq, Inhabited

namespace Supply

def empty : Supply := ⟨0⟩

/-- The next identifier, and the supply without it. -/
def fresh (s : Supply) : Ident × Supply := (s.issued + 1, ⟨s.issued + 1⟩)

/-- The next `n` identifiers, and the supply without them. -/
def take (s : Supply) (n : Nat) : List Ident × Supply :=
  ((List.range n).map (s.issued + · + 1), ⟨s.issued + n⟩)

end Supply

/-- Why a formula has no clauses. -/
inductive EncodeError
  /-- A gate leads to an atom that the atom map does not hold. -/
  | unmappedAtom (atom : String)
  /-- A part of a formula stands where only a disjunction of literals may. -/
  | malformedClause (part : Formula)
  /-- An atom has no indicators in the table. -/
  | unknownAtom (atom : String)
  deriving DecidableEq

def EncodeError.message : EncodeError → String
  | unmappedAtom atom =>
    "cannot Tseitin-transform atom " ++ Text.quoted atom
      ++ " without an entry in the shared atom map"
  | malformedClause part => part.display ++ " is not a disjunction of literals"
  | unknownAtom atom => "atom " ++ Text.quoted atom ++ " has no truth indicators"

end LeastGlut
