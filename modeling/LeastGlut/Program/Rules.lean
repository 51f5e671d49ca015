/-
# The generic rules

The rules that read the facts of a program: every atom takes one of the three
values, a compound takes the value that its operands give it, no formula of
the knowledge base may be false, and a formula is inconsistent when an atom
below it is valued `b`. They are the same for every knowledge base, and least
answer sets are those with the fewest inconsistent formulas.

Rules are over atoms with variables. Each variable stands for a node, a name,
a value or a number, by its place in the atoms it occurs in. The text of the
rules is in blocks, each under its comment.

Key definitions: `Program.Pattern`, `Program.GenericRule`, `Program.blocks`,
`Program.genericRules`.
-/
import LeastGlut.Truth

namespace LeastGlut

/-- The two kinds of node with a list of operands. -/
inductive Junction
  | conjunction
  | disjunction
  deriving DecidableEq

namespace Junction

def name : Junction → String
  | conjunction => "conjunction"
  | disjunction => "disjunction"

/-- What an operand is called. -/
def operandName : Junction → String
  | conjunction => "conjunct"
  | disjunction => "disjunct"

/-- The value of a node all of whose operands have it. -/
def unit : Junction → Truth
  | conjunction => .t
  | disjunction => .f

/-- The value of a node any of whose operands has it. -/
def zero : Junction → Truth
  | conjunction => .f
  | disjunction => .t

end Junction

namespace Program

/-- A value in a rule: one of the three, or a variable. -/
inductive ValueTerm
  | value (v : Truth)
  | var (name : String)

/-- The initial of a value, or the name of the variable. -/
def ValueTerm.text : ValueTerm → String
  | value .t => "t"
  | value .f => "f"
  | value .b => "b"
  | var name => name

/-- An atom with variables. -/
inductive Pattern
  | kbFormula (id root : String)
  | isAtom (node atom : String)
  | isTrue (node : String)
  | isFalse (node : String)
  | negation (node inner : String)
  | kind (j : Junction) (node : String)
  | arity (j : Junction) (node count : String)
  | link (j : Junction) (child node : String)
  | value (v : ValueTerm)
  | atom (name : String)
  | val (name : String) (v : ValueTerm)
  | holds (node : String) (v : ValueTerm)
  | contains (root node : String)
  | inconsistent (id : String)

namespace Pattern

def predicate : Pattern → String
  | kbFormula .. => "kb_formula"
  | isAtom .. => "formula_is_atom"
  | isTrue .. => "formula_is_true"
  | isFalse .. => "formula_is_false"
  | negation .. => "negation"
  | kind j _ => j.name
  | arity j .. => "num_" ++ j.operandName ++ "s"
  | link j .. => j.operandName ++ "_of"
  | value _ => "value"
  | atom _ => "atom"
  | val .. => "val"
  | holds .. => "holds"
  | contains .. => "contains"
  | inconsistent _ => "f_inconsistent"

def arguments : Pattern → List String
  | isTrue x | isFalse x | kind _ x | atom x | inconsistent x => [x]
  | kbFormula x y | isAtom x y | negation x y | arity _ x y | link _ x y | contains x y => [x, y]
  | value v => [v.text]
  | val x v | holds x v => [x, v.text]

def text (p : Pattern) : String := p.predicate ++ "(" ++ ", ".intercalate p.arguments ++ ")"

end Pattern

def inBraces (text : String) : String := "\x7b " ++ text ++ " \x7d"

/-- What a rule asks for. -/
inductive Requirement
  | present (p : Pattern)
  | absent (p : Pattern)
  /-- As many nodes, put for the variable `element`, have all of the atoms. -/
  | count (element : String) (ps : List Pattern) (size : String)

namespace Requirement

def text : Requirement → String
  | present p => p.text
  | absent p => "not " ++ p.text
  | count element ps size =>
    "#count " ++ inBraces (element ++ " : " ++ ", ".intercalate (ps.map Pattern.text)) ++ " = "
      ++ size

/-- What stands before a requirement behind another one: a count takes its own line. -/
def lead : Requirement → String
  | count .. => ",\n               "
  | _ => ", "

end Requirement

/-- What a rule concludes. -/
inductive Conclusion
  | atom (p : Pattern)
  /-- Between `least` and `most` of the atoms for a value, put for the variable `element`,
  under a condition. -/
  | choice (least most : Nat) (element : String) (p condition : Pattern)
  | falsity

def Conclusion.text : Conclusion → String
  | atom p => p.text ++ " "
  | choice least most _ p condition =>
    toString least ++ " " ++ inBraces (p.text ++ " : " ++ condition.text) ++ " "
      ++ toString most ++ " "
  | falsity => ""

/-- The requirements of a body, in order. -/
def Requirement.textOf : List Requirement → String
  | [] => ""
  | q :: qs => q.text ++ String.join (qs.map fun q => q.lead ++ q.text)

structure GenericRule where
  head : Conclusion
  body : List Requirement

namespace GenericRule

def text (r : GenericRule) : String := r.head.text ++ ":- " ++ Requirement.textOf r.body ++ "."

def atom : GenericRule := ⟨.atom (.atom "A"), [.present (.isAtom "_" "A")]⟩

/-- An atom takes one value. -/
def choice : GenericRule :=
  ⟨.choice 1 1 "V" (.val "A" (.var "V")) (.value (.var "V")), [.present (.atom "A")]⟩

def leaf : GenericRule :=
  ⟨.atom (.holds "F" (.var "V")), [.present (.isAtom "F" "A"), .present (.val "A" (.var "V"))]⟩

def verum : GenericRule := ⟨.atom (.holds "F" (.value .t)), [.present (.isTrue "F")]⟩

def falsum : GenericRule := ⟨.atom (.holds "F" (.value .f)), [.present (.isFalse "F")]⟩

/-- A negation where the operand has the value `v`. -/
def negation (v : Truth) : GenericRule :=
  ⟨.atom (.holds "F" (.value v.neg)),
    [.present (.negation "F" "G"), .present (.holds "G" (.value v))]⟩

/-- A junction where all operands have the one value. -/
def all (j : Junction) : GenericRule :=
  ⟨.atom (.holds "F" (.value j.unit)), [.present (.kind j "F"), .present (.arity j "F" "N"),
    .count "G" [.link j "G" "F", .holds "G" (.value j.unit)] "N"]⟩

/-- A junction where any operand has the other value. -/
def any (j : Junction) : GenericRule :=
  ⟨.atom (.holds "F" (.value j.zero)), [.present (.kind j "F"), .present (.link j "G" "F"),
    .present (.holds "G" (.value j.zero))]⟩

/-- A junction that has neither value. -/
def otherwise (j : Junction) : GenericRule :=
  ⟨.atom (.holds "F" (.value .b)), [.present (.kind j "F"), .absent (.holds "F" (.value .t)),
    .absent (.holds "F" (.value .f))]⟩

/-- No root is false. -/
def denial : GenericRule :=
  ⟨.falsity, [.present (.kbFormula "_" "F"), .present (.holds "F" (.value .f))]⟩

def containsRoot : GenericRule := ⟨.atom (.contains "F" "F"), [.present (.kbFormula "_" "F")]⟩

/-- What stands below a node is contained where the node is. -/
def containsBelow (below : Pattern) : GenericRule :=
  ⟨.atom (.contains "F" "G"), [.present (.contains "F" "H"), .present below]⟩

def inconsistent : GenericRule :=
  ⟨.atom (.inconsistent "I"), [.present (.kbFormula "I" "F"), .present (.contains "F" "G"),
    .present (.isAtom "G" "A"), .present (.val "A" (.value .b))]⟩

end GenericRule

inductive Statement
  /-- What the values are. -/
  | values (vs : List Truth)
  | rule (r : GenericRule)
  /-- Prefers answer sets where the atoms for the variable `element` weigh less. -/
  | minimize (weight : Nat) (element : String) (p : Pattern)
  | display (predicate : String) (arity : Nat)

def Statement.text : Statement → String
  | values vs => "value(" ++ "; ".intercalate (vs.map fun v => (ValueTerm.value v).text) ++ ")."
  | rule r => r.text
  | minimize weight element p =>
    "#minimize " ++ inBraces (toString weight ++ ", " ++ element ++ " : " ++ p.text) ++ "."
  | display predicate arity => "#show " ++ predicate ++ "/" ++ toString arity ++ "."

/-- Statements under a comment. -/
structure Block where
  comment : List String
  statements : List Statement

def Block.text (b : Block) : String := "\n".intercalate (b.comment ++ b.statements.map Statement.text)

/-- The generic rules as they stand in a program. -/
def blocks : List Block := [
  ⟨["% Generic rules of the paraconsistent semantics. Knowledge-base-specific",
    "% facts describing the formula trees are prepended to this program."], []⟩,
  ⟨["% Every atom takes exactly one of the three truth values."],
    [.values Truth.all, .rule .atom, .rule .choice]⟩,
  ⟨["% Leaves."], [.rule .leaf, .rule .verum, .rule .falsum]⟩,
  ⟨["% Negation swaps t and f and keeps b."],
    [.rule (.negation .f), .rule (.negation .t), .rule (.negation .b)]⟩,
  ⟨["% A conjunction is t if all conjuncts are, f if any conjunct is, and b",
    "% otherwise."],
    [.rule (.all .conjunction), .rule (.any .conjunction), .rule (.otherwise .conjunction)]⟩,
  ⟨["% Disjunction is dual."],
    [.rule (.all .disjunction), .rule (.any .disjunction), .rule (.otherwise .disjunction)]⟩,
  ⟨["% No formula of the knowledge base may be false."], [.rule .denial]⟩,
  ⟨["% A formula is inconsistent if it contains an atom valued b."],
    [.rule .containsRoot, .rule (.containsBelow (.negation "H" "G")),
      .rule (.containsBelow (.link .conjunction "G" "H")),
      .rule (.containsBelow (.link .disjunction "G" "H"))]⟩,
  ⟨[], [.rule .inconsistent]⟩,
  ⟨[], [.minimize 1 "I" (.inconsistent "I")]⟩,
  ⟨[], [.display "val" 2, .display "f_inconsistent" 1]⟩]

def statements : List Statement := blocks.flatMap Block.statements

/-- The text of the generic rules, each line ended. -/
def genericRules : String := "\n\n".intercalate (blocks.map Block.text) ++ "\n"

end Program
end LeastGlut
