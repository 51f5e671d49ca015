/-
# Bytes read as text

UTF-8 with replacement: a maximal part of a well-formed sequence that does not
go on as one becomes a single replacement character, and so does a byte that
starts none.

Key definitions: `Decoder.step`, `decodeLossy`, `decode?`.
-/

namespace LeastGlut.Text

def replacement : Char := '\ufffd'

/-- The number of bytes that follow a lead byte, and the range of the first of
them; the ranges shut out overlong forms, surrogates and what lies past the
last code point. -/
def followers? (lead : UInt8) : Option (Nat × UInt8 × UInt8) :=
  if lead < 0xC2 then none
  else if lead < 0xE0 then some (1, 0x80, 0xBF)
  else if lead = 0xE0 then some (2, 0xA0, 0xBF)
  else if lead = 0xED then some (2, 0x80, 0x9F)
  else if lead < 0xF0 then some (2, 0x80, 0xBF)
  else if lead = 0xF0 then some (3, 0x90, 0xBF)
  else if lead < 0xF4 then some (3, 0x80, 0xBF)
  else if lead = 0xF4 then some (3, 0x80, 0x8F)
  else none

/-- The payload bits of a lead byte with `n` followers. -/
def leadBits (lead : UInt8) (n : Nat) : Nat :=
  match n with
  | 1 => lead.toNat % 32
  | 2 => lead.toNat % 16
  | _ => lead.toNat % 8

/-- Where decoding stands: `need` followers are missing, the next of them from
`lo` to `hi`, and `bits` is the payload so far. The parts decoded are held in
reverse, an ill-formed one as `none`. -/
structure Decoder where
  need : Nat
  lo : UInt8
  hi : UInt8
  bits : Nat
  revParts : List (Option Char)

namespace Decoder

/-- Between sequences. -/
def between (revParts : List (Option Char)) : Decoder := ⟨0, 0, 0, 0, revParts⟩

/-- Takes a byte between sequences. -/
def lead (revParts : List (Option Char)) (b : UInt8) : Decoder :=
  if b < 0x80 then between (some (Char.ofNat b.toNat) :: revParts)
  else match followers? b with
    | none => between (none :: revParts)
    | some (n, lo, hi) => ⟨n, lo, hi, leadBits b n, revParts⟩

def step (d : Decoder) (b : UInt8) : Decoder :=
  match d.need with
  | 0 => lead d.revParts b
  | need + 1 =>
    if d.lo ≤ b && b ≤ d.hi then
      let bits := d.bits * 64 + b.toNat % 64
      if need = 0 then between (some (Char.ofNat bits) :: d.revParts)
      else ⟨need, 0x80, 0xBF, bits, d.revParts⟩
    else lead (none :: d.revParts) b

/-- The parts decoded when the bytes end; a sequence cut short is ill-formed. -/
def parts (d : Decoder) : List (Option Char) :=
  (if d.need = 0 then d.revParts else none :: d.revParts).reverse

end Decoder

/-- The characters of a byte string, with `none` for each ill-formed part. -/
def decodeParts (bytes : List UInt8) : List (Option Char) :=
  (bytes.foldl Decoder.step (.between [])).parts

/-- Reads bytes as UTF-8, each ill-formed part as one replacement character. -/
def decodeLossy (bytes : List UInt8) : String :=
  String.ofList ((decodeParts bytes).map fun c => c.getD replacement)

/-- Reads well-formed UTF-8 only. -/
def decode? (bytes : List UInt8) : Option String :=
  ((decodeParts bytes).mapM id).map String.ofList

end LeastGlut.Text
