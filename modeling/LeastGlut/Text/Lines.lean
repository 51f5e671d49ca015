/-
# Lines of text

A line feed ends a line. `segments` keeps the line feed with the line it
ends, so the segments join to the text again; `lines` drops it, together with
one carriage return before it.

Key definitions: `segments`, `lines`.
-/

namespace LeastGlut.Text

/-- Puts a character in front of a text that is held in segments. -/
def addToSegments (c : Char) (rest : List (List Char)) : List (List Char) :=
  if c = '\n' then [c] :: rest
  else match rest with
    | [] => [[c]]
    | line :: rest => (c :: line) :: rest

theorem flatten_addToSegments (c : Char) (rest : List (List Char)) :
    (addToSegments c rest).flatten = c :: rest.flatten := by
  unfold addToSegments
  split
  · simp
  · cases rest <;> simp

/-- The lines of a text, each with the line feed that ends it. -/
def segments (cs : List Char) : List (List Char) := cs.foldr addToSegments []

/-- No character is lost. -/
theorem flatten_segments (cs : List Char) : (segments cs).flatten = cs := by
  induction cs with
  | nil => rfl
  | cons c cs ih =>
    rw [segments, List.foldr_cons, flatten_addToSegments]
    exact congrArg _ ih

/-- A line without the line feed, or carriage return and line feed, that ends it. -/
def withoutEnding (line : List Char) : List Char :=
  match line.reverse with
  | '\n' :: '\r' :: rest => rest.reverse
  | '\n' :: rest => rest.reverse
  | _ => line

/-- The lines of a text without their endings. -/
def lines (cs : List Char) : List (List Char) := (segments cs).map withoutEnding

end LeastGlut.Text
