/-
# Encodings of knowledge bases

An encoding is a set of weighted clauses whose models of least cost are the
least inconsistent models of a knowledge base. Its variables are numbered in
one sequence: three indicators for each atom, then one flag for each formula,
then, with gates, one variable for each compound.

The hard clauses say that each atom has one value, that a formula with a
glutted atom is flagged, and that each formula is designated. The last are
clauses over the `t` and `f` indicators, each widened by the glut indicators
of the atoms it names. The soft clauses charge one unit for each flag.

Key definitions: `Encoding`, `KnowledgeBase.encode`.
-/
import LeastGlut.IndicatorTable
import LeastGlut.Gate
import LeastGlut.KnowledgeBase
import LeastGlut.SignedClause
import LeastGlut.Strategy
import LeastGlut.WeightedClauses

namespace LeastGlut

structure Encoding where
  form : ClauseForm
  clauses : WeightedClauses
  atoms : IndicatorTable
  /-- The flag of each formula. -/
  flags : List Ident
  deriving DecidableEq

namespace IndicatorTable

/-- Clauses that flag a formula when one of its atoms is a glut. -/
def flagClauses (table : IndicatorTable) (flag : Ident) (f : Formula) :
    Except EncodeError (List Clause) :=
  f.atoms.mapM fun atom => do
    let v ← table.find atom
    return [.of flag true, .of v.b false]

/-- A clause over signed atoms, in indicators and widened by the gluts of its atoms. -/
def widenSigned (table : IndicatorTable) (c : SignedClause) : Except EncodeError Clause := do
  let vs ← c.mapM fun a => table.find a.atom
  let literals := List.zipWith (fun a v => v.literal a.positive) c vs
  return literals ++ (vs.map Indicators.glutLiteral).eraseDups

/-- A clause over `t` indicators and gate variables, in indicators and widened
by the gluts of the atoms it names. Gate variables stay as they are. -/
def widenGate (table : IndicatorTable) (c : Clause) : Clause :=
  let literals := c.map fun l : Literal => match table.ofTruth? l.natAbs with
    | some v => v.literal (0 < l)
    | none => l
  let named := c.filterMap fun l : Literal => table.ofTruth? l.natAbs
  literals ++ (named.map Indicators.glutLiteral).eraseDups

/-- Clauses that hold when a formula is designated, from its normal form. -/
def cnfClauses (table : IndicatorTable) (f : Formula) : Except EncodeError (List Clause) := do
  (← f.signedClauses).mapM table.widenSigned

/-- Clauses that hold when a formula is designated, from its gates. -/
def gateClauses (table : IndicatorTable) (f : Formula) (s : Supply) :
    Except EncodeError (List Clause × Supply) := do
  let (s, result) := f.gates table.truthVariables s
  let c ← result
  return (([c.top] :: c.clauses).map table.widenGate, s)

end IndicatorTable

namespace KnowledgeBase

/-- The hard clauses of formulas with their flags, from normal forms. -/
def cnfHard (table : IndicatorTable) : List (Formula × Ident) → Except EncodeError (List Clause)
  | [] => .ok []
  | (f, flag) :: rest => do
    let flagged ← table.flagClauses flag f
    let clauses ← table.cnfClauses f
    return flagged ++ clauses ++ (← cnfHard table rest)

/-- The hard clauses of formulas with their flags, from gates. -/
def gateHard (table : IndicatorTable) :
    List (Formula × Ident) → Supply → Except EncodeError (List Clause × Supply)
  | [], s => .ok ([], s)
  | (f, flag) :: rest, s => do
    let flagged ← table.flagClauses flag f
    let (clauses, s) ← table.gateClauses f s
    let (others, s) ← gateHard table rest s
    return (flagged ++ clauses ++ others, s)

def encode (form : ClauseForm) (kb : KnowledgeBase) : Except EncodeError Encoding := do
  let (table, s) := IndicatorTable.allocate .empty kb.atoms
  let (flags, s) := s.take kb.size
  let numbered := kb.formulas.zip flags
  let (hard, s) ← match form with
    | .naive => (cnfHard table numbered).map (·, s)
    | .tseitin => gateHard table numbered s
  let soft := flags.map fun flag => ([Literal.of flag false], 1)
  return ⟨form, ⟨table.constraints ++ hard, soft, s.issued⟩, table, flags⟩

end KnowledgeBase
end LeastGlut
