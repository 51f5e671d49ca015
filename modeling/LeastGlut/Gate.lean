/-
# Gates

A gate ties a variable to the value of one connective over literals, by at
most four clauses. A formula becomes gates bottom up: an atom is the literal
of its variable, and every other node gets a fresh variable, numbered after
those of its operands. The literal of the root stands for the formula.

An atom that the map does not hold stops the numbering there; the variables
given out before it stay given out.

Key definitions: `Gate.clauses`, `GateCnf`, `Formula.gates`.
-/
import LeastGlut.Clause

namespace LeastGlut

inductive Gate
  | const (value : Bool)
  | not (a : Literal)
  | binary (op : Connective) (a b : Literal)
  deriving DecidableEq

/-- Clauses that hold when `v` has the value of the gate. -/
def Gate.clauses (v : Literal) : Gate → List Clause
  | const true => [[v]]
  | const false => [[v.flip]]
  | not a => [[v.flip, a.flip], [v, a]]
  | binary .and a b => [[v.flip, a], [v.flip, b], [v, a.flip, b.flip]]
  | binary .or a b => [[v, a.flip], [v, b.flip], [v.flip, a, b]]
  | binary .implies a b => [[v.flip, a.flip, b], [v, a], [v, b.flip]]
  | binary .iff a b =>
    [[v.flip, a.flip, b], [v.flip, a, b.flip], [v, a, b], [v, a.flip, b.flip]]

/-- Clauses that define the gates of a formula, and the literal of its root. -/
structure GateCnf where
  top : Literal
  clauses : List Clause
  deriving DecidableEq

/-- Puts a gate with a fresh variable on top of clauses that define its operands. -/
def GateCnf.extend (below : List Clause) (g : Gate) (s : Supply) :
    Supply × Except EncodeError GateCnf :=
  let (v, s) := s.fresh
  let top := Literal.of v true
  (s, .ok ⟨top, below ++ g.clauses top⟩)

/-- The gates of a formula over the variables of its atoms, with the supply
after the last variable given out. -/
def Formula.gates (atoms : List (String × Ident)) : Formula → Supply →
    Supply × Except EncodeError GateCnf
  | .atom name, s => match atoms.lookup name with
    | some i => (s, .ok ⟨Literal.of i true, []⟩)
    | none => (s, .error (.unmappedAtom name))
  | .verum, s => GateCnf.extend [] (.const true) s
  | .falsum, s => GateCnf.extend [] (.const false) s
  | .not inner, s => match inner.gates atoms s with
    | (s, .ok c) => GateCnf.extend c.clauses (.not c.top) s
    | (s, .error e) => (s, .error e)
  | .binary op lhs rhs, s => match lhs.gates atoms s with
    | (s, .ok l) => match rhs.gates atoms s with
      | (s, .ok r) => GateCnf.extend (l.clauses ++ r.clauses) (.binary op l.top r.top) s
      | (s, .error e) => (s, .error e)
    | (s, .error e) => (s, .error e)

end LeastGlut
