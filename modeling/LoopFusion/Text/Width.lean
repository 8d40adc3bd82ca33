import LoopFusion.Text.Extender
import LoopFusion.Text.Ranges
import LoopFusion.Text.Wide

/-!
How many columns one character takes within a text: none if it is drawn on or in another, two for
the wide characters of East Asia and for pictures, one for any other, control characters included.
-/

namespace LoopFusion.Text

/-- Code points that are never drawn. -/
def ignorable : List (Nat × Nat) :=
  [(0x00ad, 0x00ad), (0x034f, 0x034f), (0x061c, 0x061c), (0x115f, 0x1160), (0x17b4, 0x17b5),
    (0x180b, 0x180f), (0x200b, 0x200f), (0x202a, 0x202e), (0x2060, 0x206f), (0x3164, 0x3164),
    (0xfe00, 0xfe0f), (0xfeff, 0xfeff), (0xffa0, 0xffa0), (0xfff0, 0xfff8), (0x1bca0, 0x1bca3),
    (0x1d173, 0x1d17a), (0xe0000, 0xe0fff)]

/-- Hangul vowels and final consonants, which are drawn within the syllable before them. -/
def hangulEndings : List (Nat × Nat) :=
  [(0x1160, 0x11ff), (0xd7b0, 0xd7c6), (0xd7cb, 0xd7fb)]

/-- Code points drawn around or on the character after them. -/
def leading : List (Nat × Nat) :=
  [(0x0605, 0x0605), (0x070f, 0x070f), (0x0890, 0x0891), (0x08e2, 0x08e2), (0x0d4e, 0x0d4e),
    (0xa8fa, 0xa8fa), (0x111c2, 0x111c3), (0x113d1, 0x113d1), (0x1193f, 0x1193f),
    (0x11941, 0x11941), (0x11a84, 0x11a89), (0x11d46, 0x11d46), (0x11f02, 0x11f02)]

/-- A joining letter and a filler have a shape where nothing is there to join. -/
def takesNoColumn (n : Nat) : Bool :=
  (inRanges extenders n || inRanges ignorable n || inRanges hangulEndings n ||
    inRanges leading n) && n ≠ 0x2d7f && n ≠ 0x115f

def charColumns (c : Char) : Nat :=
  let n := c.toNat
  if n ≤ 0xa0 then 1
  else if takesNoColumn n then 0
  else if n = 0x17d8 then 3
  else if n = 0x17a4 || inRanges wide n then 2
  else 1

end LoopFusion.Text
