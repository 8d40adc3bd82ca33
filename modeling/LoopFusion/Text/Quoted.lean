import LoopFusion.Text.Ranges
import LoopFusion.Text.Shown

/-!
Text between quotes on one line, in which every character can be told from any other.
-/

namespace LoopFusion.Text

/-- Whether a character is drawn by itself: no mark on another, no control, no blank but the plain
one. -/
def isShown (c : Char) : Bool :=
  if c.toNat < 0x10000 then inRanges shown c.toNat else inRanges shownAbove c.toNat

/-- Lower-case hexadecimal digits. -/
def hexText (n : Nat) : String := String.ofList (Nat.toDigits 16 n)

def quotedChar (c : Char) : String :=
  match c with
  | '"' => "\\\""
  | '\\' => "\\\\"
  | '\n' => "\\n"
  | '\r' => "\\r"
  | '\t' => "\\t"
  | '\x00' => "\\0"
  | c => if isShown c then c.toString else "\\u\x7b" ++ hexText c.toNat ++ "\x7d"

def quoted (s : String) : String := "\"" ++ String.join (s.toList.map quotedChar) ++ "\""

end LoopFusion.Text
