/-
# Letters that run together

Letters of some scripts join their neighbours into one shape. These are the
classes of letters that do, and the characters that may stand between them
without keeping them apart.

Key definitions: `isLam`, `isAlef`, `isSubjoinable`, `isTifinagh`,
`isLisuFirst`, `isLisuSecond`, `settlingRanges`, `isTransparentMark`.
-/
import LeastGlut.Text.Combining

namespace LeastGlut.Text

/-- The Arabic letters of the joining group Lam. -/
def isLam (c : Char) : Bool :=
  let n := c.toNat
  n == 0x644 || (0x6B5 ≤ n && n ≤ 0x6B8) || n == 0x76A || n == 0x8A6 || n == 0x8C7

/-- The Arabic letters of the joining group Alef. -/
def isAlef (c : Char) : Bool :=
  let n := c.toNat
  n == 0x622 || n == 0x623 || n == 0x625 || n == 0x627 || (0x671 ≤ n && n ≤ 0x673) || n == 0x675
    || n == 0x773 || n == 0x774 || (0x870 ≤ n && n ≤ 0x882)

/-- The Khmer letters that have a form below the line. -/
def subjoinableRanges : Ranges := [
  (0x1780, 0x1782), (0x1784, 0x1787), (0x1789, 0x178C), (0x178E, 0x1793), (0x1795, 0x1798),
  (0x179B, 0x179D), (0x17A0, 0x17A0), (0x17A2, 0x17A2), (0x17A7, 0x17A7), (0x17AB, 0x17AC),
  (0x17AF, 0x17AF)]

def isSubjoinable (c : Char) : Bool := subjoinableRanges.has c.toNat

/-- The Tifinagh consonants. -/
def isTifinagh (c : Char) : Bool := (0x2D31 ≤ c.toNat && c.toNat ≤ 0x2D65) || c.toNat == 0x2D6F

/-- The Lisu tone letters that can be the first of a pair. -/
def isLisuFirst (c : Char) : Bool := 0xA4F8 ≤ c.toNat && c.toNat ≤ 0xA4FB

/-- The Lisu tone letters that can be the second of a pair. -/
def isLisuSecond (c : Char) : Bool := 0xA4FC ≤ c.toNat && c.toNat ≤ 0xA4FD

/-- The characters without columns whose joining type is not transparent. -/
def settlingRanges : Ranges := [
  (0x605, 0x605), (0x890, 0x891), (0x8E2, 0x8E2), (0x9BE, 0x9BE), (0x9D7, 0x9D7), (0xB3E, 0xB3E),
  (0xB57, 0xB57), (0xBBE, 0xBBE), (0xBD7, 0xBD7), (0xCC0, 0xCC0), (0xCC2, 0xCC2), (0xCC7, 0xCC8),
  (0xCCA, 0xCCB), (0xCD5, 0xCD6), (0xD3E, 0xD3E), (0xD4E, 0xD4E), (0xD57, 0xD57), (0xDCF, 0xDCF),
  (0xDDF, 0xDDF), (0x1160, 0x11FF), (0x1715, 0x1715), (0x1734, 0x1734), (0x180E, 0x180E),
  (0x1B35, 0x1B35), (0x1B3B, 0x1B3B), (0x1B3D, 0x1B3D), (0x1B43, 0x1B44), (0x1BAA, 0x1BAA),
  (0x1BF2, 0x1BF3), (0x200C, 0x200D), (0x2065, 0x2069), (0x302E, 0x302F), (0x3164, 0x3164),
  (0xA8FA, 0xA8FA), (0xA953, 0xA953), (0xA9C0, 0xA9C0), (0xD7B0, 0xD7C6), (0xD7CB, 0xD7FB),
  (0xFF9E, 0xFFA0), (0xFFF0, 0xFFF8), (0x111C0, 0x111C0), (0x111C2, 0x111C3), (0x11235, 0x11235),
  (0x1133E, 0x1133E), (0x1134D, 0x1134D), (0x11357, 0x11357), (0x113B8, 0x113B8),
  (0x113C2, 0x113C2), (0x113C5, 0x113C5), (0x113C7, 0x113C9), (0x113CF, 0x113CF),
  (0x113D1, 0x113D1), (0x114B0, 0x114B0), (0x114BD, 0x114BD), (0x115AF, 0x115AF),
  (0x116B6, 0x116B6), (0x11930, 0x11930), (0x1193D, 0x1193D), (0x1193F, 0x1193F),
  (0x11941, 0x11941), (0x11A3A, 0x11A3A), (0x11A84, 0x11A89), (0x11D46, 0x11D46),
  (0x11F02, 0x11F02), (0x11F41, 0x11F41), (0x16FF0, 0x16FF1), (0x1D165, 0x1D166),
  (0x1D16D, 0x1D172), (0xE0000, 0xE0000), (0xE0002, 0xE001F), (0xE0080, 0xE00FF),
  (0xE01F0, 0xE0FFF)
]

/-- Whether an Arabic letter joins across the character, if that takes no columns. -/
def isTransparent (c : Char) : Bool := !settlingRanges.has c.toNat

/-- The ignorable marks, across which letters of the other scripts join. -/
def isTransparentMark (c : Char) : Bool := isIgnorable c && isCombining c

end LeastGlut.Text
