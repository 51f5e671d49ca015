/-
# Programs of facts

A logic program shows an answer-set solver each formula of a knowledge base
node by node, as ground facts. Nodes are named by the formula's identifier
and their place in pre-order. The text of a program is one fact a line, a
blank line, and the generic rules.

Key definitions: `Node`, `Fact`, `Fact.text`, `Program`, `Program.text`.
-/
import LeastGlut.Program.Rules

namespace LeastGlut

/-- A node of a formula's tree, by formula and place in pre-order. -/
structure Node where
  formula : Nat
  index : Nat
  deriving DecidableEq, Inhabited

def Node.root (formula : Nat) : Node := ⟨formula, 0⟩

def Node.text (n : Node) : String := "n(" ++ toString n.formula ++ "," ++ toString n.index ++ ")"

inductive Fact
  | kbFormula (id : Nat) (root : Node)
  | formula (node : Node)
  | isAtom (node : Node) (atom : String)
  | isTrue (node : Node)
  | isFalse (node : Node)
  | negation (node inner : Node)
  | conjunction (node : Node)
  | numConjuncts (node : Node) (count : Nat)
  | conjunctOf (child node : Node)
  | disjunction (node : Node)
  | numDisjuncts (node : Node) (count : Nat)
  | disjunctOf (child node : Node)
  deriving DecidableEq

/-- One character inside a string term: quotes and backslashes get a backslash. -/
def quoteChar (c : Char) : List Char := if c = '"' || c = '\\' then ['\\', c] else [c]

/-- A text as a string term. -/
def quoteTerm (s : String) : String := String.ofList ('"' :: s.toList.flatMap quoteChar ++ ['"'])

namespace Fact

def predicate : Fact → String
  | kbFormula .. => "kb_formula"
  | formula .. => "formula"
  | isAtom .. => "formula_is_atom"
  | isTrue .. => "formula_is_true"
  | isFalse .. => "formula_is_false"
  | negation .. => "negation"
  | conjunction .. => "conjunction"
  | numConjuncts .. => "num_conjuncts"
  | conjunctOf .. => "conjunct_of"
  | disjunction .. => "disjunction"
  | numDisjuncts .. => "num_disjuncts"
  | disjunctOf .. => "disjunct_of"

def arguments : Fact → List String
  | kbFormula id root => [toString id, root.text]
  | isAtom node atom => [node.text, quoteTerm atom]
  | formula node | isTrue node | isFalse node | conjunction node | disjunction node => [node.text]
  | numConjuncts node count | numDisjuncts node count => [node.text, toString count]
  | negation a b | conjunctOf a b | disjunctOf a b => [a.text, b.text]

/-- A fact as it stands in a program. -/
def text (fact : Fact) : String :=
  fact.predicate ++ "(" ++ ", ".intercalate fact.arguments ++ ")."

end Fact

/-- The facts of a knowledge base, in order. -/
structure Program where
  facts : List Fact
  deriving DecidableEq

def Program.text (p : Program) : String :=
  "\n".intercalate (p.facts.map Fact.text) ++ "\n\n" ++ genericRules

end LeastGlut
