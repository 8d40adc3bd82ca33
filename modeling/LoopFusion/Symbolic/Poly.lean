import LoopFusion.Arith.Checked
import LoopFusion.Symbolic.SymbolTable

/-!
Integer polynomials over symbols. Terms are kept in increasing order of their monomials and without
zero coefficients, so equal polynomials are equal as data. Coefficients stay within a word: an
operation whose partial results leave that range has no answer.
-/

namespace LoopFusion

/-- A product of symbols, in increasing order. -/
abbrev Monomial := List Symbol

namespace Monomial

/-- Lexicographic order; a proper initial part comes first. -/
def cmp : Monomial → Monomial → Ordering
  | [], [] => .eq
  | [], _ :: _ => .lt
  | _ :: _, [] => .gt
  | a :: as, b :: bs => (compare a b).then (cmp as bs)

def insert (s : Symbol) : Monomial → Monomial
  | [] => [s]
  | t :: ts => if s ≤ t then s :: t :: ts else t :: insert s ts

def times (a b : Monomial) : Monomial := List.foldr insert b a

end Monomial

structure Poly where
  terms : List (Monomial × Int)
deriving DecidableEq

namespace Poly

def zero : Poly := ⟨[]⟩

def const (c : Int) : Poly := if c = 0 then zero else ⟨[([], c)]⟩

def symbol (s : Symbol) : Poly := ⟨[([s], 1)]⟩

def isZero (p : Poly) : Bool := p.terms.isEmpty

/-- The value of a polynomial without symbols. -/
def const? (p : Poly) : Option Int :=
  match p.terms with
  | [] => some 0
  | [([], c)] => some c
  | _ => none

def coeffOf (p : Poly) (m : Monomial) : Int := (p.terms.lookup m).getD 0

/-- The coefficient of a symbol standing alone. -/
def coeff (p : Poly) (s : Symbol) : Int := p.coeffOf [s]

/-- The symbols that occur, in increasing order. -/
def symbols (p : Poly) : List Symbol :=
  (p.terms.foldr (fun t acc => t.1.times acc) []).eraseReps

/-- A term in front of others, left out if its coefficient is zero. -/
def consTerm (m : Monomial) (c : Int) (rest : List (Monomial × Int)) : List (Monomial × Int) :=
  if c = 0 then rest else (m, c) :: rest

/-- Add `c * m` to ordered terms. -/
def addTerm? (m : Monomial) (c : Int) : List (Monomial × Int) → Option (List (Monomial × Int))
  | [] => (checked c).map (consTerm m · [])
  | (n, d) :: rest =>
    match m.cmp n with
    | .lt => (checked c).map (consTerm m · ((n, d) :: rest))
    | .eq => (checked (d + c)).map (consTerm n · rest)
    | .gt => (addTerm? m c rest).map ((n, d) :: ·)

/-- Add terms one after the other. -/
def addTerms? (start : List (Monomial × Int)) (terms : List (Monomial × Int)) :
    Option (List (Monomial × Int)) :=
  terms.foldlM (fun acc t => addTerm? t.1 t.2 acc) start

def add? (p q : Poly) : Option Poly := (addTerms? p.terms q.terms).map mk

def scale? (p : Poly) (k : Int) : Option Poly :=
  if k = 0 then some zero
  else (p.terms.mapM fun t => (checked (t.2 * k)).map (t.1, ·)).map mk

def neg? (p : Poly) : Option Poly := p.scale? (-1)

def sub? (p q : Poly) : Option Poly := do p.add? (← q.neg?)

/-- Add `c * m` times the given terms to ordered terms. -/
def addProduct? (m : Monomial) (c : Int) (terms start : List (Monomial × Int)) :
    Option (List (Monomial × Int)) :=
  terms.foldlM (fun acc t => do addTerm? (m.times t.1) (← checked (c * t.2)) acc) start

def mul? (p q : Poly) : Option Poly :=
  (p.terms.foldlM (fun acc t => addProduct? t.1 t.2 q.terms acc) []).map mk

section Text

variable (name : Symbol → String)

/-- A term without its sign. -/
def termText : Monomial × Int → String
  | ([], c) => toString c.natAbs
  | (m, c) =>
    let product := "*".intercalate (m.map name)
    if c.natAbs = 1 then product else toString c.natAbs ++ "*" ++ product

def firstText (t : Monomial × Int) : String := (if t.2 < 0 then "-" else "") ++ termText name t

def laterText (t : Monomial × Int) : String :=
  (if t.2 < 0 then " - " else " + ") ++ termText name t

/-- Terms in order with the constant last, and `0` for no terms. -/
def text (p : Poly) : String :=
  match p.terms.filter (!·.1.isEmpty) ++ p.terms.filter (·.1.isEmpty) with
  | [] => "0"
  | t :: ts => firstText name t ++ String.join (ts.map (laterText name))

end Text

end Poly

end LoopFusion
