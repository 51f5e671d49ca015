/-
# Facts of formulas

Nodes are numbered in pre-order as their facts are given. A node is first
declared, then described: an atom or constant by one fact, a negation after
its operand, a conjunction or disjunction by its kind and arity and then, for
each operand, the operand's own facts and the fact that ties it to the node.

An implication is described as the disjunction, and an equivalence as the
conjunction of two implications, that it stands for; the node it was met at
keeps its number.

Key definitions: `Fact.ofFormula`, `Program.ofKnowledgeBase`.
-/
import LeastGlut.KnowledgeBase
import LeastGlut.Program

namespace LeastGlut

namespace Junction

/-- The facts that say a node is of this kind, with two operands. -/
def head : Junction → Node → List Fact
  | conjunction, n => [.conjunction n, .numConjuncts n 2]
  | disjunction, n => [.disjunction n, .numDisjuncts n 2]

def link : Junction → (child node : Node) → Fact
  | conjunction => .conjunctOf
  | disjunction => .disjunctOf

end Junction

namespace Fact

/-- Facts that describe a node, given the next free place in pre-order; with
them, the place that is free after them. -/
abbrev Describer := Node → Nat → List Fact × Nat

/-- Declares a node at the next free place and describes it there. -/
def declare (describe : Describer) (formula next : Nat) : Node × List Fact × Nat :=
  let node : Node := ⟨formula, next⟩
  let (facts, next) := describe node (next + 1)
  (node, .formula node :: facts, next)

def describeNot (inner : Describer) : Describer := fun node next =>
  let (child, facts, next) := declare inner node.formula next
  (facts ++ [.negation node child], next)

def describeJunction (j : Junction) (lhs rhs : Describer) : Describer := fun node next =>
  let (left, leftFacts, next) := declare lhs node.formula next
  let (right, rightFacts, next) := declare rhs node.formula next
  (j.head node ++ leftFacts ++ [j.link left node] ++ rightFacts ++ [j.link right node], next)

def describeImplies (lhs rhs : Describer) : Describer :=
  describeJunction .disjunction (describeNot lhs) rhs

def describe : Formula → Describer
  | .atom name => fun node next => ([.isAtom node name], next)
  | .verum => fun node next => ([.isTrue node], next)
  | .falsum => fun node next => ([.isFalse node], next)
  | .not inner => describeNot (describe inner)
  | .binary .and lhs rhs => describeJunction .conjunction (describe lhs) (describe rhs)
  | .binary .or lhs rhs => describeJunction .disjunction (describe lhs) (describe rhs)
  | .binary .implies lhs rhs => describeImplies (describe lhs) (describe rhs)
  | .binary .iff lhs rhs =>
    let l := describe lhs
    let r := describe rhs
    describeJunction .conjunction (describeImplies l r) (describeImplies r l)

/-- The facts of a formula with an identifier, its root first. -/
def ofFormula (id : Nat) (f : Formula) : List Fact :=
  let (root, facts, _) := declare (describe f) id 0
  .kbFormula id root :: facts

end Fact

/-- The facts of every formula, numbered from `id`. -/
def Program.factsFrom (id : Nat) : List Formula → List Fact
  | [] => []
  | f :: rest => Fact.ofFormula id f ++ factsFrom (id + 1) rest

def Program.ofKnowledgeBase (kb : KnowledgeBase) : Program := ⟨factsFrom 0 kb.formulas⟩

end LeastGlut
