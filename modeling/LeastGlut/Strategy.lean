/-
# Strategies

A knowledge base is solved through weighted clauses, made from normal forms or
from gates, or through a logic program for an answer-set solver.

Key definitions: `ClauseForm`, `Strategy`.
-/
import LeastGlut.Truth

namespace LeastGlut

/-- How formulas become clauses. -/
inductive ClauseForm
  /-- Conjunctive normal form over the atoms alone. -/
  | naive
  /-- A variable and its gate for every compound. -/
  | tseitin
  deriving DecidableEq, Inhabited

/-- What computes a solution. -/
inductive Strategy
  | naive
  | tseitin
  | asp
  deriving DecidableEq, Inhabited

namespace Strategy

def all : List Strategy := [naive, tseitin, asp]

def name : Strategy → String
  | naive => "naive"
  | tseitin => "tseitin"
  | asp => "asp"

/-- The form of the clauses, for a strategy that works on clauses. -/
def clauseForm? : Strategy → Option ClauseForm
  | naive => some .naive
  | tseitin => some .tseitin
  | asp => none

def ofName? (s : String) : Except NameError Strategy :=
  match all.find? (fun x => x.name = s) with
  | some x => .ok x
  | none => .error .unmatched

end Strategy

namespace ClauseForm

def all : List ClauseForm := [naive, tseitin]

/-- The strategy that solves by clauses of this form. -/
def strategy : ClauseForm → Strategy
  | naive => .naive
  | tseitin => .tseitin

def name (s : ClauseForm) : String := s.strategy.name

def ofName? (s : String) : Except NameError ClauseForm :=
  match all.find? (fun x => x.name = s) with
  | some x => .ok x
  | none => .error .unmatched

end ClauseForm
end LeastGlut
