/-
# Truth values with gluts

A proposition is true, false, or both at once. The third value is a glut: it
satisfies every literal over its atom. Values form the chain
`f < b < t`; conjunction is its meet, disjunction its join, and negation
turns it upside down, which fixes `b`. A value is designated when it is at
least partially true.

Values are read from text, as are the members of other small sets
(connectives, strategies, output formats). A text that names no member gives a
`NameError`.

Key definitions: `Truth`, `Truth.neg`, `Truth.meet`, `Truth.join`,
`Truth.designated`, `NameError`, `Truth.ofName?`.
-/

namespace LeastGlut

/-- Why a text names no member of a closed set. -/
inductive NameError
  | unmatched
  | unknownVariant (given : String) (expected : List String)
  deriving DecidableEq

/-- A name between the marks that error texts set around it. -/
def NameError.quote (s : String) : String := "`" ++ s ++ "`"

def NameError.message : NameError → String
  | unmatched => "Matching variant not found"
  | unknownVariant given expected =>
    "unknown variant " ++ quote given ++ ", expected one of "
      ++ ", ".intercalate (expected.map quote)

/-- True only, false only, or a glut of the two. -/
inductive Truth
  | t
  | f
  | b
  deriving DecidableEq, Inhabited

namespace Truth

/-- Every value, in the order in which an atom's indicators are numbered. -/
def all : List Truth := [t, f, b]

def neg : Truth → Truth
  | t => f
  | f => t
  | b => b

/-- The height of a value in the chain `f < b < t`. -/
def rank : Truth → Nat
  | f => 0
  | b => 1
  | t => 2

def meet (x y : Truth) : Truth := if x.rank ≤ y.rank then x else y

def join (x y : Truth) : Truth := if y.rank ≤ x.rank then x else y

def designated : Truth → Bool
  | f => false
  | _ => true

/-- The place of a value in `all`. -/
def place : Truth → Nat
  | t => 0
  | f => 1
  | b => 2

/-- Orders values by their place in `all`, not by their height. -/
def comparePlace (x y : Truth) : Ordering := compare x.place y.place

def name : Truth → String
  | t => "true"
  | f => "false"
  | b => "both"

/-- The constructor's name in capitalised form, as error texts list values. -/
def title : Truth → String
  | t => "True"
  | f => "False"
  | b => "Both"

/-- Reads a value from its long name. -/
def ofLongName? (s : String) : Except NameError Truth :=
  match all.find? (fun x => x.name = s) with
  | some x => .ok x
  | none => .error (.unknownVariant s (all.map name))

/-- Reads a value from its long name or its initial. -/
def ofName? : String → Except NameError Truth
  | "true" => .ok t
  | "t" => .ok t
  | "false" => .ok f
  | "f" => .ok f
  | "both" => .ok b
  | "b" => .ok b
  | _ => .error .unmatched

end Truth
end LeastGlut
