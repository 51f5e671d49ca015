/-
# Columns of text

How many columns a text takes on a line. Most characters take one, wide ones
two, and marks, joiners and the later parts of a Hangul syllable none. A text
is more than its characters where they run together: an emoji sequence takes
two columns, letters that join into one shape take one, and a variation
selector widens or narrows the character in front of it.

So a text is read from its end, and each character is counted by what stands
right behind it. The count of a character can be negative, where it takes back
a column that was counted behind it.

Key definitions: `Follower`, `Behind`, `Behind.step`, `columns`.
-/
import LeastGlut.Text.Emoji
import LeastGlut.Text.Ligature
import LeastGlut.Text.Wide

namespace LeastGlut.Text

/-- The start of a text, as far as it bears on the character in front of it. -/
inductive Follower
  | plain
  | lineFeed
  /-- A skin tone. -/
  | modifier
  /-- One regional indicator, or several. -/
  | regional
  | regionals
  | emoji
  /-- A joiner and an emoji. -/
  | joinedEmoji
  /-- A keycap in front of a joiner and an emoji. -/
  | joinedKeycap
  /-- Regional indicators in front of a joiner and an emoji: the first of them
  from the end, an even number, or an odd number above one. -/
  | joinedRegional
  | joinedEven
  | joinedOdd
  /-- The end of a flag's name in front of a joiner and an emoji, with the
  number of letters, or of digits, read of the name. -/
  | tagLetters (n : Nat)
  | tagDigits (n : Nat)
  | alef
  /-- The last letter of a ligature; `joined` when a joiner stands in front of it. -/
  | lamed (joined : Bool)
  | ya (joined : Bool)
  | vowelYa
  | tifinagh (joined : Bool)
  | joinerTifinagh
  | lisu
  | orkhonI (joined : Bool)
  | subjoinable
  | kiratE
  | kiratAi
  deriving DecidableEq, Inhabited

namespace Follower

/-- Ligatures of scripts other than Arabic, which join across ignorable marks and joiners. -/
def isOpenLigature : Follower → Bool
  | lamed _ | ya _ | vowelYa | tifinagh _ | joinerTifinagh | lisu | orkhonI _ | subjoinable => true
  | _ => false

/-- Letters that wait for others to run together with; selectors in front of them stand. -/
def isLigature (f : Follower) : Bool := f == alef || f.isOpenLigature

/-- A joiner in front of an emoji sequence. -/
def isJoined : Follower → Bool
  | joinedEmoji | joinedKeycap => true
  | _ => false

/-- A ligature behind a joiner. -/
def join : Follower → Follower
  | lamed _ => lamed true
  | ya _ => ya true
  | tifinagh _ => tifinagh true
  | orkhonI _ => orkhonI true
  | f => f

end Follower

/-- What stands right behind a character: the start of a text, and the variation
selectors in front of it that nothing has used yet. They ask for an emoji, for
text, or for a quotation mark of full width. -/
structure Behind where
  follower : Follower
  emoji : Bool
  text : Bool
  full : Bool
  deriving DecidableEq, Inhabited

namespace Behind

/-- A follower with no selector in front of it. -/
def bare (f : Follower) : Behind := ⟨f, false, false, false⟩

/-- What a selector leaves standing of what is behind it: ligatures only. -/
def settled (b : Behind) : Behind := if b.follower.isLigature then b else bare .plain

end Behind

/-- Characters that share a column with others, or take none. -/
def takesNoColumn (c : Char) : Bool :=
  let n := c.toNat
  if n == 0x115F || n == 0x2D7F then false
  else isIgnorable c || isCombining c || (0x1160 ≤ n && n ≤ 0x11FF) || (0xD7B0 ≤ n && n ≤ 0xD7C6)
    || (0xD7CB ≤ n && n ≤ 0xD7FB) || n == 0xFF9E || n == 0xFF9F
    || n == 0x605 || n == 0x70F || n == 0x890 || n == 0x891 || n == 0x8E2
    || n == 0xD4E || n == 0x111C2 || n == 0x111C3 || n == 0x113D1 || n == 0x1193F || n == 0x11941
    || (0x11A84 ≤ n && n ≤ 0x11A89) || n == 0x11D46 || n == 0x11F02 || n == 0xA8FA

/-- The quotation marks that have a form of full width. -/
def isCurlyQuote (c : Char) : Bool :=
  c = '\u2018' || c = '\u2019' || c = '\u201c' || c = '\u201d'

/-- The columns of a character by itself. -/
def charColumns (c : Char) : Nat :=
  if c.toNat ≤ 0xA0 then 1
  else if c.toNat = 0x17D8 then 3
  else if c.toNat = 0x17A4 then 2
  else if takesNoColumn c then 0
  else if isWide c then 2
  else 1

/-- What a character is to the one in front of it, by itself. -/
def Follower.ofChar (c : Char) : Follower :=
  if c = '\u05dc' then lamed false
  else if isAlef c then alef
  else if isSubjoinable c then subjoinable
  else if c = '\u1a10' then ya false
  else if isTifinagh c then tifinagh false
  else if isLisuSecond c then lisu
  else match c.toNat with
    | 0x10C03 => orkhonI false
    | 0x16D67 => kiratE
    | 0x16D68 => kiratAi
    | _ =>
      if isRegional c then regional
      else if isModifier c then modifier
      else if isEmoji c then emoji
      else plain

/-- The zero width joiner. -/
def joiner : Char := '\u200d'

namespace Follower

/-- The count of a character in front of a follower that it runs together
with, and what the two are to the character in front of them. -/
def merge? (c : Char) : Follower → Option (Int × Follower)
  | alef =>
    if isLam c then some (0, plain)
    else if takesNoColumn c && isTransparent c then some (0, alef)
    else none
  | lamed true => if c = '\u05d0' then some (0, plain) else none
  | subjoinable => if c = '\u17d2' then some (-1, plain) else none
  | ya true => if c = '\u1a17' then some (0, vowelYa) else none
  | vowelYa => if c = '\u1a15' then some (0, plain) else none
  | tifinagh joined =>
    if c = '\u2d7f' then some (1, joinerTifinagh)
    else if joined && isTifinagh c then some (0, plain)
    else none
  | joinerTifinagh => if isTifinagh c then some (-1, plain) else none
  | lisu => if isLisuFirst c then some (0, plain) else none
  | orkhonI true => if c.toNat = 0x10C32 then some (0, plain) else none
  | kiratE => match c.toNat with
    | 0x16D63 => some (0, plain)
    | 0x16D67 => some (0, kiratAi)
    | 0x16D68 => some (1, kiratE)
    | 0x16D69 => some (0, plain)
    | _ => none
  | kiratAi => if c.toNat = 0x16D63 then some (0, plain) else none
  | modifier =>
    if isModifierBase c then some (0, emoji)
    else if c = joiner then some (0, joinedEmoji)
    else none
  | regional => if isRegional c then some (1, regionals) else none
  | regionals =>
    if isRegional c then some (1, regionals)
    else if c = joiner then some (0, joinedEmoji)
    else none
  | emoji => if c = joiner then some (0, joinedEmoji) else none
  | joinedEmoji =>
    if c = '\u20e3' then some (0, joinedKeycap)
    else if isRegional c then some (1, joinedRegional)
    else if isModifier c then some (0, modifier)
    else if c.toNat = 0xE007F then some (0, tagLetters 0)
    else if isEmoji c then some (0, emoji)
    else none
  | joinedRegional => if isRegional c then some (-1, joinedEven) else none
  | joinedOdd =>
    if isRegional c then some (-1, joinedEven)
    else if c = joiner then some (0, joinedEmoji)
    else none
  | joinedEven =>
    if isRegional c then some (3, joinedOdd)
    else if c = joiner then some (0, joinedEmoji)
    else none
  | tagLetters n =>
    if isTagLetter c && n < 6 then some (0, tagLetters (n + 1))
    else if isTagDigit c && n < 5 then some (0, tagDigits 1)
    else if c.toNat = 0x1F3F4 && 3 ≤ n then some (0, emoji)
    else none
  | tagDigits n =>
    if isTagDigit c && n < 3 then some (0, tagDigits (n + 1))
    else if c.toNat = 0x1F3F4 && n = 3 then some (0, emoji)
    else none
  | _ => none

end Follower

namespace Behind

/-- A character that is no selector, where no selector asks for emoji or text. -/
def stepShaped (c : Char) (b : Behind) : Int × Behind :=
  if b.follower.isOpenLigature && c = joiner then (0, { b with follower := b.follower.join })
  else if b.follower.isOpenLigature && isTransparentMark c then (0, b)
  else match (if b.full then none else b.follower.merge? c) with
    | some (count, f) => (count, bare f)
    | none => (charColumns c, bare (.ofChar c))

/-- A character that no selector turns into an emoji. -/
def stepPlain (c : Char) (b : Behind) : Int × Behind :=
  if c = '\n' then (1, bare .lineFeed)
  else if c = '\r' && b.follower = .lineFeed then (0, bare .plain)
  else if c.toNat ≤ 0xA0 then (1, bare .plain)
  else if c = '\ufe0f' then
    (0, { (if b.follower.isJoined then b else b.settled) with emoji := true })
  else if c = '\ufe0e' then (0, { b.settled with text := true })
  else if c = '\ufe01' then (0, { b.settled with full := true })
  else if b.text then
    if isTextSelectable c then (1, bare .plain) else stepShaped c { b with text := false }
  else if b.full then
    if isCurlyQuote c then (2, bare .plain) else stepShaped c { b with full := false }
  else stepShaped c b

/-- The count of a character in front of what stands behind it, and what the
two are to the character in front of them. -/
def step (c : Char) (b : Behind) : Int × Behind :=
  if b.emoji then
    if isSelectable c then (if b.follower.isJoined then 0 else 2, bare .emoji)
    else stepPlain c { b.settled with emoji := false }
  else stepPlain c b

end Behind

/-- The columns of a text of more than ASCII, and what the text is to a
character in front of it. -/
def measure (cs : List Char) : Int × Behind :=
  cs.foldr (fun c (total, b) =>
    let (count, b) := b.step c
    (total + count, b)) (0, .bare .plain)

/-- The columns of a text. In a text of ASCII alone every character takes one. -/
def columns (s : String) : Nat :=
  let cs := s.toList
  if cs.all fun c => c.toNat < 0x80 then cs.length else (measure cs).1.toNat

end LeastGlut.Text
