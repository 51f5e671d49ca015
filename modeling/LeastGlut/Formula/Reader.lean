/-
# Reading formulas

A formula is read by a machine that takes one character at a time. Its state
is either waiting for an operand, inside an atom, behind a complete formula, or
inside the symbol of a connective; below it stands a stack of what is still
open: negations, left operands and brackets. Binding is
`! > && > || > => > <=>`; negation and `=>` group to the right, the other
connectives to the left. Blanks may stand around every token.

A character on which the machine has no step cannot continue any formula that
starts as the text does, so a text is refused at the first such character, or
at its end. `State.expected` lists what could have stood there, atoms and
blanks apart. The formulas read are those that a parser with one level for each
connective reads (`Formula.read_toOption`).

Key definitions: `State.step`, `State.finish?`, `Formula.read`.
-/
import LeastGlut.Formula
import LeastGlut.Text.Blank

namespace LeastGlut
namespace Formula

/-- What has been opened and waits for the operand behind it. -/
inductive Frame
  | neg
  | left (op : Connective) (lhs : Formula)
  | bracket
  deriving DecidableEq

/-- Where the reader stands. The characters of an atom are held in reverse. -/
inductive State
  | operand (stack : List Frame)
  | name (stack : List Frame) (revName : List Char)
  | after (stack : List Frame) (f : Formula)
  | symbol (stack : List Frame) (f : Formula) (op : Connective) (next : Char) (rest : List Char)
  deriving DecidableEq

def isNameChar (c : Char) : Bool := c.isAlphanum || c == '_'

/-- A complete operand closes the negations in front of it. -/
def negated : List Frame → Formula → State
  | .neg :: stack, f => negated stack (.not f)
  | stack, f => .after stack f

/-- Whether a pending left operand of `op'` is complete when `op` comes next. -/
def yields (op' op : Connective) : Bool :=
  op.tightness < op'.tightness || (op' == op && !op.groupsRight)

/-- The left operand of `op` takes in the compounds that bind at least as tightly. -/
def pushLeft (op : Connective) : List Frame → Formula → List Frame
  | .left op' lhs :: stack, f =>
    if yields op' op then pushLeft op stack (.binary op' lhs f)
    else .left op f :: .left op' lhs :: stack
  | stack, f => .left op f :: stack

/-- Completes every pending compound down to the innermost open bracket. -/
def complete : List Frame → Formula → List Frame × Formula
  | .left op lhs :: stack, f => complete stack (.binary op lhs f)
  | stack, f => (stack, f)

/-- The state behind an atom once it has ended. -/
def State.settle : State → State
  | .name stack revName => negated stack (.atom (String.ofList revName.reverse))
  | s => s

/-- The step of a state that is not inside an atom. -/
def State.stepSettled : State → Char → Option State
  | .operand stack, c =>
    if Text.isBlank c then some (.operand stack)
    else if isNameChar c then some (.name stack [c])
    else match c with
      | '!' => some (.operand (.neg :: stack))
      | '(' => some (.operand (.bracket :: stack))
      | '+' => some (negated stack .verum)
      | '-' => some (negated stack .falsum)
      | _ => none
  | .after stack f, c =>
    if Text.isBlank c then some (.after stack f)
    else match c with
      | '&' => some (.symbol stack f .and '&' [])
      | '|' => some (.symbol stack f .or '|' [])
      | '=' => some (.symbol stack f .implies '>' [])
      | '<' => some (.symbol stack f .iff '=' ['>'])
      | ')' => match complete stack f with
        | (.bracket :: outer, g) => some (negated outer g)
        | _ => none
      | _ => none
  | .symbol stack f op next rest, c =>
    if c = next then match rest with
      | [] => some (.operand (pushLeft op stack f))
      | next' :: rest' => some (.symbol stack f op next' rest')
    else none
  | .name _ _, _ => none

/-- Takes one character; an atom takes in every character that can continue it. -/
def State.step (s : State) (c : Char) : Option State :=
  match s with
  | .name stack revName =>
    if isNameChar c then some (.name stack (c :: revName)) else s.settle.stepSettled c
  | _ => s.stepSettled c

/-- The formula read, if the text may end here. -/
def State.finish? (s : State) : Option Formula :=
  match s.settle with
  | .after stack f => match complete stack f with
    | ([], g) => some g
    | _ => none
  | _ => none

/-- What could stand next, as characters in ascending order and then, as
`none`, the end of the text. Atoms and blanks are left out. -/
def State.expected (s : State) : List (Option Char) :=
  match s.settle with
  | .operand _ => [some '!', some '(', some '+', some '-']
  | .after stack _ =>
    if stack.contains .bracket then [some '&', some ')', some '<', some '=', some '|']
    else [some '&', some '<', some '=', some '|', none]
  | .symbol _ _ _ next _ => [some next]
  | .name _ _ => []

/-- Where and why a text is no formula: `found` stands where only `expected`
could; the end of the text is `none`. -/
structure Fault where
  position : Nat
  found : Option Char
  expected : List (Option Char)
  deriving DecidableEq

/-- The end of the place that a fault marks: behind the character found. -/
def Fault.stop (e : Fault) : Nat := if e.found.isSome then e.position + 1 else e.position

/-- Reads on from a state at a position. -/
def readFrom (s : State) (position : Nat) : List Char → Except Fault Formula
  | [] => match s.finish? with
    | some f => .ok f
    | none => .error ⟨position, none, s.expected⟩
  | c :: cs => match s.step c with
    | some s' => readFrom s' (position + 1) cs
    | none => .error ⟨position, some c, s.expected⟩

/-- Reads a text as one formula. -/
def read (cs : List Char) : Except Fault Formula := readFrom (.operand []) 0 cs

end Formula
end LeastGlut
