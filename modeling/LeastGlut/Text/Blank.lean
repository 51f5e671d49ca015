/-
# Blank characters

The characters with the Unicode property White_Space, and trimming of text
by a class of characters.

Key definitions: `isBlank`, `trim`, `trimEnd`, `firstWord?`.
-/

namespace LeastGlut.Text

/-- The Unicode property White_Space. -/
def isBlank (c : Char) : Bool :=
  let n := c.toNat
  (9 ≤ n && n ≤ 13) || n == 0x20 || n == 0x85 || n == 0xA0 || n == 0x1680
    || (0x2000 ≤ n && n ≤ 0x200A) || n == 0x2028 || n == 0x2029 || n == 0x202F
    || n == 0x205F || n == 0x3000

/-- Drops the characters of a class from the end. -/
def trimEnd (p : Char → Bool) (cs : List Char) : List Char := (cs.reverse.dropWhile p).reverse

/-- Drops blanks from both ends. -/
def trim (cs : List Char) : List Char := trimEnd isBlank (cs.dropWhile isBlank)

/-- The first maximal run of characters that are not blank. -/
def firstWord? (cs : List Char) : Option (List Char) :=
  match cs.dropWhile isBlank with
  | [] => none
  | c :: rest => some ((c :: rest).takeWhile (fun c => !isBlank c))

end LeastGlut.Text
