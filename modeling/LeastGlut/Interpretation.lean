/-
# What an answer says about the knowledge base

An optimum of an encoding, or the terms of a least answer set, is read back
as a solution. It must give each atom exactly one value, and the cost that
came with it must be the cost that it shows.

Key definitions: `Encoding.interpret`, `Shown.ofTerm`,
`KnowledgeBase.interpret`.
-/
import LeastGlut.AnswerReport
import LeastGlut.Encoding
import LeastGlut.Optimum
import LeastGlut.Solution

namespace LeastGlut

/-- The values found for an atom, in the order in which they were found. -/
def valuesOf (found : List (String × Truth)) (atom : String) : List Truth :=
  (found.filter fun e => e.1 = atom).map (·.2)

/-- The one value found for an atom. -/
def valueOf (found : List (String × Truth)) (atom : String) : Except SolveError Solution.Entry :=
  match valuesOf found atom with
  | [value] => .ok ⟨atom, value⟩
  | values => .error (.values atom values)

/-- A value for each atom, in ascending order of the atoms. -/
def valuation (atoms : List String) (found : List (String × Truth)) :
    Except SolveError (List Solution.Entry) :=
  (atoms.mapM (valueOf found)).map fun es => es.mergeSort fun a b => decide (a.atom ≤ b.atom)

/-- Reads an optimum of an encoding. -/
def Encoding.interpret (e : Encoding) (o : Outcome) : Except SolveError Solution := do
  let found := o.positive.filterMap e.atoms.lookup
  let entries ← valuation (e.atoms.entries.map (·.1)) found
  let flagged := (List.range e.flags.length).filter fun id => (e.flags[id]?).any o.value
  let cost := e.clauses.cost o.value
  if cost ≠ o.cost then throw (.solver (.modelCost o.cost cost))
  return ⟨e.form.strategy, cost, flagged, entries⟩

/-- What a shown term says. -/
inductive Shown
  | value (atom : String) (value : Truth)
  | inconsistent (id : Nat)
  | other
  deriving DecidableEq

/-- Reads a shown term; a term that is no function, or names an atom, value or
formula that the knowledge base does not hold, is refused. -/
def Shown.ofTerm (kb : KnowledgeBase) : Term → Except SolveError Shown
  | .function "val" [.text atom, .function name []] =>
    match Truth.ofName? name with
    | .error _ => .error (.unknown (.truthValue name))
    | .ok v =>
      if kb.atoms.contains atom then .ok (.value atom v) else .error (.unknown (.atom atom))
  | .function "f_inconsistent" [.number id] =>
    if 0 ≤ id ∧ id < kb.size then .ok (.inconsistent id.toNat)
    else .error (.unknown (.formulaId id))
  | .function _ _ => .ok .other
  | t => .error (.unknown (.symbol t))

/-- Reads a least answer set. -/
def KnowledgeBase.interpret (kb : KnowledgeBase) (a : Answer) : Except SolveError Solution := do
  let shown ← a.terms.mapM (Shown.ofTerm kb)
  let found := shown.filterMap fun s => match s with
    | .value atom v => some (atom, v)
    | _ => none
  let entries ← valuation kb.atoms found
  let inconsistent := (List.range kb.size).filter fun id => shown.contains (.inconsistent id)
  if inconsistent.length ≠ a.cost then
    throw (.solver (.inconsistentCount a.cost inconsistent.length))
  return ⟨.asp, inconsistent.length, inconsistent, entries⟩

end LeastGlut
