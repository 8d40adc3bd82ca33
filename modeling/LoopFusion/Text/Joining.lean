import LoopFusion.Text.Emoji
import LoopFusion.Text.Width

/-!
Neighbouring characters that are drawn as one, and the columns of a text. A text is measured from
its end: what has been read decides how the character before it joins.
-/

namespace LoopFusion.Text

/-! ### Classes of characters -/

def isJoiner (c : Char) : Bool := c.toNat = 0x200d

/-- Code points without a column that keep the letters on their two sides apart. -/
def unjoined : List (Nat × Nat) :=
  [(0x0605, 0x0605), (0x0890, 0x0891), (0x08e2, 0x08e2), (0x09be, 0x09be), (0x09d7, 0x09d7),
    (0x0b3e, 0x0b3e), (0x0b57, 0x0b57), (0x0bbe, 0x0bbe), (0x0bd7, 0x0bd7), (0x0cc0, 0x0cc0),
    (0x0cc2, 0x0cc2), (0x0cc7, 0x0cc8), (0x0cca, 0x0ccb), (0x0cd5, 0x0cd6), (0x0d3e, 0x0d3e),
    (0x0d4e, 0x0d4e), (0x0d57, 0x0d57), (0x0dcf, 0x0dcf), (0x0ddf, 0x0ddf), (0x1160, 0x11ff),
    (0x1715, 0x1715), (0x1734, 0x1734), (0x180e, 0x180e), (0x1b35, 0x1b35), (0x1b3b, 0x1b3b),
    (0x1b3d, 0x1b3d), (0x1b43, 0x1b44), (0x1baa, 0x1baa), (0x1bf2, 0x1bf3), (0x200c, 0x200d),
    (0x2065, 0x2069), (0x302e, 0x302f), (0x3164, 0x3164), (0xa8fa, 0xa8fa), (0xa953, 0xa953),
    (0xa9c0, 0xa9c0), (0xd7b0, 0xd7c6), (0xd7cb, 0xd7fb), (0xffa0, 0xffa0), (0xfff0, 0xfff8),
    (0x111c0, 0x111c0), (0x111c2, 0x111c3), (0x11235, 0x11235), (0x1133e, 0x1133e),
    (0x1134d, 0x1134d), (0x11357, 0x11357), (0x113b8, 0x113b8), (0x113c2, 0x113c2),
    (0x113c5, 0x113c5), (0x113c7, 0x113c9), (0x113cf, 0x113cf), (0x113d1, 0x113d1),
    (0x114b0, 0x114b0), (0x114bd, 0x114bd), (0x115af, 0x115af), (0x116b6, 0x116b6),
    (0x11930, 0x11930), (0x1193d, 0x1193d), (0x1193f, 0x1193f), (0x11941, 0x11941),
    (0x11a84, 0x11a89), (0x11d46, 0x11d46), (0x11f02, 0x11f02), (0x11f41, 0x11f41),
    (0x16ff0, 0x16ff1), (0x1d165, 0x1d166), (0x1d16d, 0x1d172), (0xe0000, 0xe0000),
    (0xe0002, 0xe001f), (0xe0080, 0xe00ff), (0xe01f0, 0xe0fff)]

/-- Whether the Arabic letters on the two sides of a character still meet. -/
def isTransparent (c : Char) : Bool :=
  0xa0 < c.toNat && charColumns c = 0 && !inRanges unjoined c.toNat

/-- Marks that are never drawn; letters on their two sides still meet. -/
def isIgnorableMark (c : Char) : Bool :=
  inRanges [(0x034f, 0x034f), (0x17b4, 0x17b5), (0x180b, 0x180d), (0x180f, 0x180f),
    (0xfe00, 0xfe0f), (0xe0100, 0xe01ef)] c.toNat

def isArabicLam (c : Char) : Bool :=
  inRanges [(0x0644, 0x0644), (0x06b5, 0x06b8), (0x076a, 0x076a), (0x08a6, 0x08a6),
    (0x08c7, 0x08c7)] c.toNat

def isArabicAlef (c : Char) : Bool :=
  inRanges [(0x0622, 0x0623), (0x0625, 0x0625), (0x0627, 0x0627), (0x0671, 0x0673),
    (0x0675, 0x0675), (0x0773, 0x0774), (0x0870, 0x0882)] c.toNat

/-- Khmer letters that can be written under the letter before. -/
def isKhmerSubscript (c : Char) : Bool :=
  inRanges [(0x1780, 0x1782), (0x1784, 0x1787), (0x1789, 0x178c), (0x178e, 0x1793),
    (0x1795, 0x1798), (0x179b, 0x179d), (0x17a0, 0x17a0), (0x17a2, 0x17a2), (0x17a7, 0x17a7),
    (0x17ab, 0x17ac), (0x17af, 0x17af)] c.toNat

def isTifinaghConsonant (c : Char) : Bool :=
  inRanges [(0x2d31, 0x2d65), (0x2d6f, 0x2d6f)] c.toNat

def isFlagLetter (c : Char) : Bool := inRanges [(0x1f1e6, 0x1f1ff)] c.toNat

def isSkinTone (c : Char) : Bool := inRanges [(0x1f3fb, 0x1f3ff)] c.toNat

def isTagLetter (c : Char) : Bool := inRanges [(0xe0061, 0xe007a)] c.toNat

def isTagDigit (c : Char) : Bool := inRanges [(0xe0030, 0xe0039)] c.toNat

def isPicture (c : Char) : Bool := inRanges pictures c.toNat

/-! ### What follows a character -/

/-- A selector asks for one of the shapes of the character before it. -/
inductive Selector
  | picture
  | narrow
  | wide
deriving DecidableEq

def Selector.ofChar? (c : Char) : Option Selector :=
  match c.toNat with
  | 0xfe01 => some .wide
  | 0xfe0e => some .narrow
  | 0xfe0f => some .picture
  | _ => none

/-- Letters that are drawn as one with certain letters before them. -/
inductive Ligature
  | alef
  | lamed
  | buginese
  | bugineseVowel
  | tifinagh
  | tifinaghJoiner
  | khmer
  | lisu
  | orkhon
deriving DecidableEq

/-- How a text begins, as far as the character before it can join. -/
inductive Opening
  | plain
  | lineFeed
  /-- A letter, perhaps behind a joiner. -/
  | letter (ligature : Ligature) (joined : Bool)
  /-- Two vowel signs that combine with vowel signs before them. -/
  | kiratSimple
  | kiratDouble
  | skinTone
  | flagLetter
  | flagLetters
  | picture
  /-- A joiner before a picture. -/
  | joiner
  /-- A keycap, the end of a tag or flag letters before a joiner. -/
  | keycap
  | tagLetters (count : Nat)
  | tagDigits (count : Nat)
  | joinedFlagLetter
  | joinedFlags
  | joinedFlagsAndLetter
deriving DecidableEq

namespace Opening

/-- How a character opens a text whose rest does not join it. -/
def ofChar (c : Char) : Opening :=
  if isArabicAlef c then .letter .alef false
  else if isKhmerSubscript c then .letter .khmer false
  else if isTifinaghConsonant c then .letter .tifinagh false
  else if isFlagLetter c then .flagLetter
  else if isSkinTone c then .skinTone
  else if isPicture c then .picture
  else
    match c.toNat with
    | 0x05dc => .letter .lamed false
    | 0x1a10 => .letter .buginese false
    | 0xa4fc | 0xa4fd => .letter .lisu false
    | 0x10c03 => .letter .orkhon false
    | 0x16d67 => .kiratSimple
    | 0x16d68 => .kiratDouble
    | _ => .plain

/-- Letters still meet across a selector. -/
def letterOnly : Opening → Opening
  | .letter l joined => .letter l joined
  | _ => .plain

/-- Only these can join what a picture selector makes of the character before it. -/
def joinsPicture : Opening → Bool
  | .joiner | .keycap => true
  | _ => false

end Opening

/-- The columns that a character adds to those of the text behind it, and the new opening. A
negative number takes back what was counted for a letter that turns out to be part of another. -/
abbrev Joined := Int × Opening

/-- How a character joins a letter behind it, if it does. -/
def Ligature.join? (l : Ligature) (joined : Bool) (c : Char) : Option Joined :=
  match l with
  | .alef =>
    if isArabicLam c then some (0, .plain)
    else if isTransparent c then some (0, .letter .alef joined)
    else none
  | .lamed => if joined && c.toNat = 0x05d0 then some (0, .plain) else none
  | .buginese => if joined && c.toNat = 0x1a17 then some (0, .letter .bugineseVowel true) else none
  | .bugineseVowel => if c.toNat = 0x1a15 then some (0, .plain) else none
  | .tifinagh =>
    if c.toNat = 0x2d7f then some (1, .letter .tifinaghJoiner true)
    else if joined && isTifinaghConsonant c then some (0, .plain)
    else none
  | .tifinaghJoiner => if isTifinaghConsonant c then some (-1, .plain) else none
  | .khmer => if c.toNat = 0x17d2 then some (-1, .plain) else none
  | .lisu => if inRanges [(0xa4f8, 0xa4fb)] c.toNat then some (0, .plain) else none
  | .orkhon => if joined && c.toNat = 0x10c32 then some (0, .plain) else none

/-- A joiner or an ignorable mark leaves a letter where it is; Arabic letters meet by themselves. -/
def Ligature.keep? (l : Ligature) (joined : Bool) (c : Char) : Option Joined :=
  if l = .alef then none
  else if isJoiner c then some (0, .letter l true)
  else if isIgnorableMark c then some (0, .letter l joined)
  else none

/-- How a character joins a picture behind it, if it does. -/
def Opening.joinPicture? (o : Opening) (c : Char) : Option Joined :=
  match o with
  | .skinTone =>
    if inRanges skinToneBases c.toNat then some (0, .picture)
    else if isJoiner c then some (0, .joiner)
    else none
  | .flagLetter => if isFlagLetter c then some (1, .flagLetters) else none
  | .flagLetters =>
    if isFlagLetter c then some (1, .flagLetters)
    else if isJoiner c then some (0, .joiner)
    else none
  | .picture => if isJoiner c then some (0, .joiner) else none
  | .joiner =>
    if c.toNat = 0x20e3 then some (0, .keycap)
    else if isFlagLetter c then some (1, .joinedFlagLetter)
    else if isSkinTone c then some (0, .skinTone)
    else if c.toNat = 0xe007f then some (0, .tagLetters 0)
    else if isPicture c then some (0, .picture)
    else none
  | .joinedFlagLetter => if isFlagLetter c then some (-1, .joinedFlags) else none
  | .joinedFlags =>
    if isFlagLetter c then some (3, .joinedFlagsAndLetter)
    else if isJoiner c then some (0, .joiner)
    else none
  | .joinedFlagsAndLetter =>
    if isFlagLetter c then some (-1, .joinedFlags)
    else if isJoiner c then some (0, .joiner)
    else none
  | .tagLetters k =>
    if isTagLetter c && k < 6 then some (0, .tagLetters (k + 1))
    else if isTagDigit c && k ≤ 4 then some (0, .tagDigits 1)
    else if c.toNat = 0x1f3f4 && 3 ≤ k then some (0, .picture)
    else none
  | .tagDigits k =>
    if isTagDigit c && k < 3 then some (0, .tagDigits (k + 1))
    else if c.toNat = 0x1f3f4 && k = 3 then some (0, .picture)
    else none
  | _ => none

/-- The vowel signs of Kirat Rai: a long vowel is one sign, or two or three simple ones. -/
def Opening.joinVowel? (o : Opening) (c : Char) : Option Joined :=
  match o, c.toNat with
  | .kiratSimple, 0x16d63 | .kiratSimple, 0x16d69 | .kiratDouble, 0x16d63 => some (0, .plain)
  | .kiratSimple, 0x16d67 => some (0, .kiratDouble)
  | .kiratSimple, 0x16d68 => some (1, .kiratSimple)
  | _, _ => none

def Opening.join? (o : Opening) (c : Char) : Option Joined :=
  match o with
  | .letter l joined => l.keep? joined c <|> l.join? joined c
  | o => o.joinVowel? c <|> o.joinPicture? c

/-! ### The columns of a text -/

/-- A measured text: its columns, how it begins, and the selectors before that. -/
structure Measure where
  columns : Int
  opening : Opening
  selectors : List Selector

namespace Measure

def empty : Measure := ⟨0, .plain, []⟩

/-- What the selectors make of the character before them, if they can. -/
def select? (m : Measure) (c : Char) : Option Joined :=
  if m.selectors.contains .picture && inRanges pictureBases c.toNat then
    some (if m.opening.joinsPicture then 0 else 2, .picture)
  else if m.selectors.contains .narrow && isPicture c && inRanges pictureBases c.toNat &&
      !inRanges [(0x1f200, 0x1f2ff)] c.toNat then
    some (1, .plain)
  else if m.selectors.contains .wide && inRanges [(0x2018, 0x2019), (0x201c, 0x201d)] c.toNat then
    some (2, .plain)
  else none

/-- The text with a selector put before it. Selectors gather before a letter, but the one for
pictures has to stand next to its character; before all else the first of them counts. -/
def consSelector (s : Selector) (m : Measure) : Measure :=
  match m.opening with
  | .letter .. => { m with selectors := s :: m.selectors.filter (· ≠ .picture) }
  | o =>
    let kept := s = .picture && o.joinsPicture && m.selectors.isEmpty
    ⟨m.columns, if kept then o else .plain, [s]⟩

/-- A carriage return is part of the line end behind it. -/
def control (o : Opening) (c : Char) : Joined :=
  if c = '\n' then (1, .lineFeed)
  else if c = '\r' && o = .lineFeed then (0, .plain)
  else (1, .plain)

/-- The text with a character put before it. -/
def cons (c : Char) (m : Measure) : Measure :=
  match m.select? c, Selector.ofChar? c with
  | some (k, o), _ => ⟨m.columns + k, o, []⟩
  | none, some s => consSelector s m
  | none, none =>
    let opening := if m.selectors.isEmpty then m.opening else m.opening.letterOnly
    let (k, o) :=
      if c.toNat ≤ 0xa0 then control opening c
      else (opening.join? c).getD (charColumns c, .ofChar c)
    ⟨m.columns + k, o, []⟩

end Measure

/-- In pure ASCII text every character takes one column. -/
def columns (s : String) : Nat :=
  if s.toList.all (·.toNat < 128) then s.length
  else (s.toList.foldr Measure.cons .empty).columns.toNat

end LoopFusion.Text
