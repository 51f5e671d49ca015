/-
# Layout of formulas in a given width

A compound is laid out flat when it and the text behind it, up to the next
place where a line may end, fit in the width. Otherwise the line ends after
its connective, and the left operand and the right one are laid out by the
same rule. The line that the right operand starts is indented by one column
more than the compound; if the operand is the empty text, the closing bracket
starts that line, at the compound's own indentation.

Key definitions: `Formula.layoutFrom`, `Formula.layout`.
-/
import LeastGlut.Formula
import LeastGlut.Text.Columns

namespace LeastGlut
namespace Formula

/-- The columns of the flat text; each atom is measured by itself. -/
def columns : Formula → Nat
  | atom name => Text.columns name
  | verum => 1
  | falsum => 1
  | not inner => inner.columns + 3
  | binary op lhs rhs => lhs.columns + op.symbol.length + rhs.columns + 4

/-- Text in progress and the column at which it ends. -/
structure Laid where
  text : String
  column : Nat

namespace Laid

/-- Appends text that holds no line break and takes a number of columns. -/
def put (l : Laid) (s : String) (columns : Nat) : Laid := ⟨l.text ++ s, l.column + columns⟩

/-- Appends ASCII text. -/
def mark (l : Laid) (s : String) : Laid := l.put s s.length

def flat (l : Laid) (f : Formula) : Laid := l.put f.display f.columns

/-- Appends a line break and the next line's indentation. -/
def newline (l : Laid) (indent : Nat) : Laid :=
  ⟨l.text ++ "\n" ++ String.ofList (List.replicate indent ' '), indent⟩

end Laid

/-- The indentation of the line that a right operand starts. -/
def operandIndent (indent : Nat) (rhs : Formula) : Nat :=
  if rhs = atom "" then indent else indent + 1

/-- Lays out a formula behind `l`. The lines it starts are indented by at
least `indent`, and `behind` columns of text follow it before a line may end. -/
def layoutFrom (width indent behind : Nat) : Formula → Laid → Laid
  | not inner, l => (layoutFrom width indent (behind + 1) inner (l.mark "!(")).mark ")"
  | binary op lhs rhs, l =>
    if l.column + (binary op lhs rhs).columns + behind ≤ width then l.flat (binary op lhs rhs)
    else
      let left := layoutFrom width indent (1 + op.symbol.length) lhs (l.mark "(")
      let broken := (left.mark (" " ++ op.symbol)).newline (operandIndent indent rhs)
      (layoutFrom width (indent + 1) (behind + 1) rhs broken).mark ")"
  | f, l => l.flat f

/-- The formula laid out in `width` columns. -/
def layout (width : Nat) (f : Formula) : String := (layoutFrom width 0 0 f ⟨"", 0⟩).text

end Formula
end LeastGlut
