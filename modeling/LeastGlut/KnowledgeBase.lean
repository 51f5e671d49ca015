/-
# Knowledge bases

A knowledge base is a list of formulas. The position of a formula is its
identifier in every encoding and result.

Key definitions: `KnowledgeBase`, `KnowledgeBase.atoms`,
`KnowledgeBase.display`.
-/
import LeastGlut.Formula

namespace LeastGlut

structure KnowledgeBase where
  formulas : List Formula
  deriving DecidableEq, Inhabited

namespace KnowledgeBase

def size (kb : KnowledgeBase) : Nat := kb.formulas.length

/-- Every atom once, in order of first reference. -/
def atoms (kb : KnowledgeBase) : List String := (kb.formulas.flatMap Formula.leaves).eraseDups

/-- One formula a line, each line ended. -/
def display (kb : KnowledgeBase) : String :=
  String.join (kb.formulas.map fun f => f.display ++ "\n")

end KnowledgeBase
end LeastGlut
