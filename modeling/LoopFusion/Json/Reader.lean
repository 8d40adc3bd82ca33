import LoopFusion.Json.Basic

/-!
Reading JSON. Each reader takes the characters that are left and answers a value with the
characters behind it, or nothing if the text breaks the grammar.
-/

namespace LoopFusion.Json

abbrev Reader (α : Type) := List Char → Option (α × List Char)

def isBlank (c : Char) : Bool := c = ' ' || c = '\n' || c = '\t' || c = '\r'

def skipBlanks (cs : List Char) : List Char := cs.dropWhile isBlank

/-- What follows a given beginning. -/
def expect? : List Char → List Char → Option (List Char)
  | [], cs => some cs
  | c :: w, d :: cs => if c = d then expect? w cs else none
  | _ :: _, [] => none

def keyword (word : String) (j : Json) : Reader Json := fun cs =>
  (expect? word.toList cs).map (j, ·)

def isDigit (c : Char) : Bool := 48 ≤ c.toNat && c.toNat ≤ 57

def digitsValue (ds : List Char) : Nat := ds.foldl (fun n d => 10 * n + (d.toNat - 48)) 0

/-- One digit or more. -/
def digits : Reader (List Char) := fun cs =>
  if (cs.takeWhile isDigit).isEmpty then none
  else some (cs.takeWhile isDigit, cs.dropWhile isDigit)

/-- Digits without a superfluous zero in front. -/
def wholePart : Reader Nat := fun cs => do
  let (ds, rest) ← digits cs
  if ds.head? = some '0' && ds ≠ ['0'] then none else some (digitsValue ds, rest)

/-- Whether a fraction follows, and what is left behind it. -/
def fraction : Reader Bool
  | '.' :: cs => (digits cs).map fun (_, rest) => (true, rest)
  | cs => some (false, cs)

def dropSign : List Char → List Char
  | '+' :: cs | '-' :: cs => cs
  | cs => cs

/-- Whether an exponent follows, and what is left behind it. -/
def exponent : Reader Bool
  | 'e' :: cs | 'E' :: cs => (digits (dropSign cs)).map fun (_, rest) => (true, rest)
  | cs => some (false, cs)

/-- A number behind its sign; minus zero counts as no integer. -/
def unsigned (negative : Bool) : Reader Json := fun cs => do
  let (n, cs) ← wholePart cs
  let (hasFraction, cs) ← fraction cs
  let (hasExponent, cs) ← exponent cs
  let value : Json :=
    if hasFraction || hasExponent || (negative && n = 0) then nonInteger
    else int (if negative then -n else n)
  return (value, cs)

def number : Reader Json
  | '-' :: cs => unsigned true cs
  | cs => unsigned false cs

def hexValue? (c : Char) : Option Nat :=
  if isDigit c then some (c.toNat - 48)
  else if 'a' ≤ c && c ≤ 'f' then some (c.toNat - 87)
  else if 'A' ≤ c && c ≤ 'F' then some (c.toNat - 55)
  else none

def hexValue4? (a b c d : Char) : Option Nat := do
  return ((← hexValue? a) * 16 + (← hexValue? b)) * 256 + (← hexValue? c) * 16 + (← hexValue? d)

/-- The code point behind a one-letter escape. -/
def letterEscape? : Char → Option Nat
  | '"' => some 34
  | '\\' => some 92
  | '/' => some 47
  | 'b' => some 8
  | 'f' => some 12
  | 'n' => some 10
  | 'r' => some 13
  | 't' => some 9
  | _ => none

/-- The code points of a text up to its closing quote; escapes may leave surrogates. -/
def codePoints : Reader (List Nat)
  | [] => none
  | '"' :: cs => some ([], cs)
  | '\\' :: 'u' :: a :: b :: c :: d :: cs => do
    let n ← hexValue4? a b c d
    let (ns, rest) ← codePoints cs
    return (n :: ns, rest)
  | '\\' :: e :: cs => do
    let n ← letterEscape? e
    let (ns, rest) ← codePoints cs
    return (n :: ns, rest)
  | c :: cs => do
    guard (32 ≤ c.toNat)
    let (ns, rest) ← codePoints cs
    return (c.toNat :: ns, rest)

def isHighSurrogate (n : Nat) : Bool := 0xD800 ≤ n && n < 0xDC00

def isLowSurrogate (n : Nat) : Bool := 0xDC00 ≤ n && n < 0xE000

/-- The characters of code points, surrogates taken in pairs. -/
def characters? : List Nat → Option (List Char)
  | [] => some []
  | [n] => if isHighSurrogate n || isLowSurrogate n then none else some [Char.ofNat n]
  | n :: m :: ns =>
    if isHighSurrogate n then
      if isLowSurrogate m then
        (characters? ns).map (Char.ofNat (0x10000 + (n - 0xD800) * 0x400 + (m - 0xDC00)) :: ·)
      else none
    else if isLowSurrogate n then none
    else (characters? (m :: ns)).map (Char.ofNat n :: ·)

/-- A text behind its opening quote; none inside if it is not made of characters. -/
def text : Reader (Option String) := fun cs => do
  let (ns, rest) ← codePoints cs
  return ((characters? ns).map String.ofList, rest)

/-- Members as an object, when all their names are texts. -/
def ofMembers (members : List (Option String × Json)) : Json :=
  match members.mapM fun (k, j) => k.map (·, j) with
  | some ms => obj ms
  | none => broken

mutual

/-- A value, at most `fuel` deep and long. -/
def value : Nat → Reader Json
  | 0, _ => none
  | fuel + 1, cs =>
    match cs with
    | 'n' :: _ => keyword "null" null cs
    | 't' :: _ => keyword "true" (bool true) cs
    | 'f' :: _ => keyword "false" (bool false) cs
    | '"' :: rest => (text rest).map fun (s, rest) => (s.elim broken str, rest)
    | '[' :: rest => (array fuel (skipBlanks rest)).map fun (js, rest) => (arr js, rest)
    | '\x7b' :: rest => (object fuel (skipBlanks rest)).map fun (ms, rest) => (ofMembers ms, rest)
    | cs => number cs

/-- The elements behind an opening bracket. -/
def array : Nat → Reader (List Json)
  | 0, _ => none
  | fuel + 1, cs =>
    match cs with
    | ']' :: rest => some ([], rest)
    | cs => elements fuel cs

/-- One element or more, up to the closing bracket. -/
def elements : Nat → Reader (List Json)
  | 0, _ => none
  | fuel + 1, cs => do
    let (j, cs) ← value fuel cs
    match skipBlanks cs with
    | ',' :: rest =>
      let (js, rest) ← elements fuel (skipBlanks rest)
      return (j :: js, rest)
    | ']' :: rest => return ([j], rest)
    | _ => none

/-- The members behind an opening brace. -/
def object : Nat → Reader (List (Option String × Json))
  | 0, _ => none
  | fuel + 1, cs =>
    match cs with
    | '\x7d' :: rest => some ([], rest)
    | cs => members fuel cs

/-- One member or more, up to the closing brace. -/
def members : Nat → Reader (List (Option String × Json))
  | 0, _ => none
  | fuel + 1, cs => do
    let cs ← expect? ['"'] cs
    let (k, cs) ← text cs
    let cs ← expect? [':'] (skipBlanks cs)
    let (j, cs) ← value fuel (skipBlanks cs)
    match skipBlanks cs with
    | ',' :: rest =>
      let (ms, rest) ← members fuel (skipBlanks rest)
      return ((k, j) :: ms, rest)
    | '\x7d' :: rest => return ([(k, j)], rest)
    | _ => none

end

/-- The document in a text that holds nothing else. -/
def parse (s : String) : Option Json := do
  let cs := s.toList
  let (j, rest) ← value (3 * cs.length + 3) (skipBlanks cs)
  guard (skipBlanks rest).isEmpty
  return j

end LoopFusion.Json
