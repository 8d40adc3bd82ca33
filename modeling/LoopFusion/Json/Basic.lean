/-!
JSON documents, and how they are written: on one line, or spread over lines with two blanks of
indentation a level.
-/

namespace LoopFusion

inductive Json
  | null
  | bool (b : Bool)
  | int (n : Int)
  | str (s : String)
  | arr (elements : List Json)
  | obj (members : List (String × Json))
  /-- A number that is no integer. -/
  | nonInteger
  /-- A text with half of a surrogate pair, or an object with such a name. -/
  | broken

namespace Json

def nat (n : Nat) : Json := int n

def ofOption {α : Type} (f : α → Json) : Option α → Json
  | some a => f a
  | none => null

def ofList {α : Type} (f : α → Json) (xs : List α) : Json := arr (xs.map f)

def hexDigit (n : Nat) : Char := if n < 10 then Char.ofNat (48 + n) else Char.ofNat (87 + n)

/-- A character inside a quoted text; control characters and the two marks are escaped. -/
def escape (c : Char) : List Char :=
  match c with
  | '"' => ['\\', '"']
  | '\\' => ['\\', '\\']
  | '\n' => ['\\', 'n']
  | '\r' => ['\\', 'r']
  | '\t' => ['\\', 't']
  | '\x08' => ['\\', 'b']
  | '\x0c' => ['\\', 'f']
  | c =>
    if c.toNat < 32 then ['\\', 'u', '0', '0', hexDigit (c.toNat / 16), hexDigit (c.toNat % 16)]
    else [c]

def quote (s : String) : String := "\"" ++ String.ofList (s.toList.flatMap escape) ++ "\""

mutual

/-- The text on one line, without blanks. -/
def compact : Json → String
  | null | nonInteger | broken => "null"
  | bool b => if b then "true" else "false"
  | int n => toString n
  | str s => quote s
  | arr elements => "[" ++ compactElements elements ++ "]"
  | obj members => "\x7b" ++ compactMembers members ++ "\x7d"

def compactElements : List Json → String
  | [] => ""
  | [j] => compact j
  | j :: rest => compact j ++ "," ++ compactElements rest

def compactMembers : List (String × Json) → String
  | [] => ""
  | [(k, j)] => quote k ++ ":" ++ compact j
  | (k, j) :: rest => quote k ++ ":" ++ compact j ++ "," ++ compactMembers rest

end

/-- A line break with the indentation of a level. -/
def newline (level : Nat) : String := "\n" ++ String.ofList (List.replicate (2 * level) ' ')

mutual

/-- The text over several lines, starting at the given level. -/
def spread (level : Nat) : Json → String
  | null | nonInteger | broken => "null"
  | bool b => if b then "true" else "false"
  | int n => toString n
  | str s => quote s
  | arr [] => "[]"
  | arr (j :: rest) =>
    "[" ++ newline (level + 1) ++ spread (level + 1) j ++ spreadElements (level + 1) rest ++
      newline level ++ "]"
  | obj [] => "\x7b\x7d"
  | obj ((k, j) :: rest) =>
    "\x7b" ++ newline (level + 1) ++ quote k ++ ": " ++ spread (level + 1) j ++
      spreadMembers (level + 1) rest ++ newline level ++ "\x7d"

/-- Further elements, each behind a comma on a line of its own. -/
def spreadElements (level : Nat) : List Json → String
  | [] => ""
  | j :: rest => "," ++ newline level ++ spread level j ++ spreadElements level rest

def spreadMembers (level : Nat) : List (String × Json) → String
  | [] => ""
  | (k, j) :: rest =>
    "," ++ newline level ++ quote k ++ ": " ++ spread level j ++ spreadMembers level rest

end

/-- The text over several lines. -/
def pretty (j : Json) : String := j.spread 0

end Json

end LoopFusion
