/-
# Reading answer lines

An answer line is a row of terms. It is read by a machine that takes one
character at a time, over a stack of the functions whose arguments are still
open. Blanks may stand before, between and behind the terms of the line, but
need not where two terms cannot run together; between the arguments of a
function they may stand around commas only. A line of blanks alone is refused
at its end, while the empty line is the row of no terms.

A line is refused at the first character on which the machine has no step, at
its end, or at a number that does not fit. The terms read are those that a parser
made of numbers, strings and functions reads (`Term.readLine_toOption`).

Key definitions: `Term.Reader.State`, `Term.Reader.step`, `Term.readLine`.
-/
import LeastGlut.Term
import LeastGlut.Text.Blank

namespace LeastGlut
namespace Term

/-- The characters, from `start` to before `stop`, at which a line is refused. -/
structure Span where
  start : Nat
  stop : Nat
  deriving DecidableEq

namespace Reader

/-- A function whose arguments are being read; `revArgs` are those read. -/
structure Open where
  name : String
  revArgs : List Term

/-- What has been read: the terms of the line in reverse, and the open
functions from the innermost outwards. -/
structure Context where
  revTerms : List Term
  stack : List Open

/-- Where the reader stands. Characters of names and strings are held in
reverse; a number knows where it started. -/
inductive State
  /-- Nothing has been read. -/
  | start
  /-- Blanks have been read, and no term. -/
  | blanks
  /-- Behind a complete term. -/
  | closed (ctx : Context)
  /-- Behind an argument and a blank. -/
  | padded (ctx : Context)
  /-- Behind an opening bracket. -/
  | opened (ctx : Context)
  /-- Behind a comma. -/
  | comma (ctx : Context)
  | minus (ctx : Context) (start : Nat)
  /-- Inside a number; a number that starts with zero takes no more digits. -/
  | digits (ctx : Context) (start : Nat) (negative : Bool) (value : Nat)
  | string (ctx : Context) (revText : List Char)
  | escape (ctx : Context) (revText : List Char)
  | name (ctx : Context) (revName : List Char)

def isNameStart (c : Char) : Bool := c.isAlpha || c == '_'

def isNameChar (c : Char) : Bool := c.isAlphanum || c == '_'

/-- A complete term joins the arguments of the innermost open function, or the line. -/
def Context.add (ctx : Context) (t : Term) : Context :=
  match ctx.stack with
  | [] => { ctx with revTerms := t :: ctx.revTerms }
  | f :: outer => { ctx with stack := { f with revArgs := t :: f.revArgs } :: outer }

/-- Closes the innermost open function. -/
def Context.close (ctx : Context) : Context :=
  match ctx.stack with
  | [] => ctx
  | f :: outer => Context.add { ctx with stack := outer } (.function f.name f.revArgs.reverse)

/-- The state behind the first character of a term at a position. -/
def begin (ctx : Context) (position : Nat) (c : Char) : Option State :=
  if c = '-' then some (.minus ctx position)
  else if c.isDigit then some (.digits ctx position false (c.toNat - '0'.toNat))
  else if c = '"' then some (.string ctx [])
  else if isNameStart c then some (.name ctx [c])
  else none

/-- Whether a number's digits can go on with one more. -/
def canGrow (value : Nat) (c : Char) : Bool := c.isDigit && value != 0

/-- The state behind a number or name that has ended; a number out of range is
refused from its start to the position of its end. -/
def settle (position : Nat) : State → Except Span State
  | .digits ctx start negative value =>
    let n : Int := if negative then -value else value
    if numberMin ≤ n ∧ n ≤ numberMax then .ok (.closed (ctx.add (.number n)))
    else .error ⟨start, position⟩
  | .name ctx revName => .ok (.closed (ctx.add (.function (String.ofList revName.reverse) [])))
  | s => .ok s

/-- The step of a state that is not inside a number or name. -/
def stepSettled (position : Nat) (c : Char) : State → Option State
  | .start => if Text.isBlank c then some .blanks else begin ⟨[], []⟩ position c
  | .blanks => if Text.isBlank c then some .blanks else begin ⟨[], []⟩ position c
  | .closed ctx =>
    if ctx.stack.isEmpty then
      if Text.isBlank c then some (.closed ctx) else begin ctx position c
    else if c = ',' then some (.comma ctx)
    else if c = ')' then some (.closed ctx.close)
    else if Text.isBlank c then some (.padded ctx)
    else none
  | .padded ctx =>
    if c = ',' then some (.comma ctx) else if Text.isBlank c then some (.padded ctx) else none
  | .opened ctx => if c = ')' then some (.closed ctx.close) else begin ctx position c
  | .comma ctx => if Text.isBlank c then some (.comma ctx) else begin ctx position c
  | .minus ctx start =>
    if c.isDigit then some (.digits ctx start true (c.toNat - '0'.toNat)) else none
  | .string ctx revText =>
    if c = '"' then some (.closed (ctx.add (.text (String.ofList revText.reverse))))
    else if c = '\\' then some (.escape ctx revText)
    else some (.string ctx (c :: revText))
  | .escape ctx revText => some (.string ctx ((if c = 'n' then '\n' else c) :: revText))
  | .digits .. => none
  | .name .. => none

/-- Takes the character at a position; a number or name takes in every
character that can continue it. -/
def step (position : Nat) (c : Char) (s : State) : Except Span State :=
  let goOn (s : State) : Except Span State :=
    match stepSettled position c s with
    | some s => .ok s
    | none => .error ⟨position, position + 1⟩
  match s with
  | .digits ctx start negative value =>
    if canGrow value c then .ok (.digits ctx start negative (value * 10 + (c.toNat - '0'.toNat)))
    else settle position s >>= goOn
  | .name ctx revName =>
    if isNameChar c then .ok (.name ctx (c :: revName))
    else if c = '(' then
      let f : Open := ⟨String.ofList revName.reverse, []⟩
      .ok (.opened { ctx with stack := f :: ctx.stack })
    else settle position s >>= goOn
  | s => goOn s

/-- The terms of a line that ends at a position. -/
def finish (position : Nat) (s : State) : Except Span (List Term) := do
  match ← settle position s with
  | .start => return []
  | .closed ctx =>
    if ctx.stack.isEmpty then return ctx.revTerms.reverse else throw ⟨position, position⟩
  | _ => throw ⟨position, position⟩

/-- Reads on from a state at a position. -/
def run (s : State) (position : Nat) : List Char → Except Span (List Term)
  | [] => finish position s
  | c :: cs => do run (← step position c s) (position + 1) cs

end Reader

/-- Reads a line as a row of terms. -/
def readLine (cs : List Char) : Except Span (List Term) := Reader.run .start 0 cs

end Term
end LeastGlut
