/-
# Indicators of atoms

An atom of three values is held in three Boolean indicators, one for each
value, of which exactly one is true. A table lists the atoms of an encoding
with their indicators, in order of first reference, and is read both ways:
from the atom to its indicators, and from an indicator to the atom and the
value it stands for.

Key definitions: `Indicators`, `IndicatorTable.allocate`, `IndicatorTable.lookup`,
`IndicatorTable.find`, `IndicatorTable.constraints`.
-/
import LeastGlut.Clause

namespace LeastGlut

/-- The indicators of one atom, one for each truth value. -/
structure Indicators where
  t : Ident
  f : Ident
  b : Ident
  deriving DecidableEq

namespace Indicators

def get (v : Indicators) : Truth → Ident
  | .t => v.t
  | .f => v.f
  | .b => v.b

/-- The value whose indicator this is. -/
def valueOf? (v : Indicators) (i : Ident) : Option Truth := Truth.all.find? (fun x => v.get x = i)

/-- The indicator that satisfies an occurrence of the atom: `t` for a positive
one, `f` for a negative one, and either as a positive literal. -/
def literal (v : Indicators) (positive : Bool) : Literal :=
  Literal.of (if positive then v.t else v.f) true

/-- The literal that satisfies every occurrence of the atom. -/
def glutLiteral (v : Indicators) : Literal := Literal.of v.b true

/-- Clauses that hold when exactly one indicator does. -/
def constraints (v : Indicators) : List Clause :=
  [[.of v.t true, .of v.f true, .of v.b true],
    [.of v.t false, .of v.f false],
    [.of v.t false, .of v.b false],
    [.of v.f false, .of v.b false]]

end Indicators

structure IndicatorTable where
  entries : List (String × Indicators)
  deriving DecidableEq, Inhabited

namespace IndicatorTable

def empty : IndicatorTable := ⟨[]⟩

/-- Gives each of the atoms three fresh identifiers. -/
def allocateEach (s : Supply) : List String → List (String × Indicators) × Supply
  | [] => ([], s)
  | atom :: rest =>
    let (t, s) := s.fresh
    let (f, s) := s.fresh
    let (b, s) := s.fresh
    let (entries, s) := allocateEach s rest
    ((atom, ⟨t, f, b⟩) :: entries, s)

/-- A table of the distinct atoms of a list, in order of first occurrence. -/
def allocate (s : Supply) (atoms : List String) : IndicatorTable × Supply :=
  let (entries, s) := allocateEach s atoms.eraseDups
  (⟨entries⟩, s)

def get? (table : IndicatorTable) (atom : String) : Option Indicators := table.entries.lookup atom

def find (table : IndicatorTable) (atom : String) : Except EncodeError Indicators :=
  match table.get? atom with
  | some v => .ok v
  | none => .error (.unknownAtom atom)

/-- The atom and the value that an indicator stands for. -/
def lookup (table : IndicatorTable) (i : Ident) : Option (String × Truth) :=
  table.entries.findSome? fun (atom, v) => (v.valueOf? i).map (atom, ·)

/-- The indicators of the atom whose `t` indicator this is. -/
def ofTruth? (table : IndicatorTable) (i : Ident) : Option Indicators :=
  (table.entries.find? fun (_, v) => v.t = i).map (·.2)

/-- Each atom with its `t` indicator. -/
def truthVariables (table : IndicatorTable) : List (String × Ident) :=
  table.entries.map fun (atom, v) => (atom, v.t)

/-- Clauses that hold when every atom has exactly one value. -/
def constraints (table : IndicatorTable) : List Clause :=
  table.entries.flatMap fun (_, v) => v.constraints

end IndicatorTable
end LeastGlut
