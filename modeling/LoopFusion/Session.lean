import LoopFusion.Symbolic.Evolution

/-!
What a run of questions accumulates: the names given to unknowns, the answers already found, and
the log.
-/

namespace LoopFusion

inductive Level
  | error
  | warn
  | info
  | debug
  | trace
deriving DecidableEq

namespace Level

def text : Level → String
  | error => "ERROR"
  | warn => "WARN"
  | info => "INFO"
  | debug => "DEBUG"
  | trace => "TRACE"

/-- Larger for less important records. -/
def verbosity : Level → Nat
  | error => 1
  | warn => 2
  | info => 3
  | debug => 4
  | trace => 5

end Level

/-- The part of the program that a log record comes from. -/
inductive Origin
  | program
  | legality
  | fusion
  | pass
deriving DecidableEq

structure LogRecord where
  level : Level
  origin : Origin
  message : String
deriving DecidableEq

structure Session where
  symbols : SymbolTable
  /-- Evolutions found for an instruction and a scope. -/
  memo : List ((InstId × Option LoopId) × Evolution)
  /-- Latest record first. -/
  log : List LogRecord

/-- A computation that may name unknowns, remember answers and write to the log. -/
abbrev Inquiry := StateM Session

namespace Session

def start : Session := ⟨.empty, [], []⟩

def remembered? (s : Session) (i : InstId) (scope : Option LoopId) : Option Evolution :=
  s.memo.lookup (i, scope)

/-- The log in the order in which it was written. -/
def records (s : Session) : List LogRecord := s.log.reverse

end Session

namespace Inquiry

def intern (name : String) : Inquiry Symbol := do
  let s ← get
  let (sym, symbols) := s.symbols.intern name
  set { s with symbols := symbols }
  return sym

def remember (i : InstId) (scope : Option LoopId) (e : Evolution) : Inquiry Unit :=
  modify fun s => { s with memo := ((i, scope), e) :: s.memo }

/-- Forget all answers; names and log stay. -/
def forget : Inquiry Unit := modify fun s => { s with memo := [] }

def write (level : Level) (origin : Origin) (message : String) : Inquiry Unit :=
  modify fun s => { s with log := ⟨level, origin, message⟩ :: s.log }

def polyText (p : Poly) : Inquiry String := return p.text (← get).symbols.name

def evolutionText (e : Evolution) : Inquiry String := return e.text (← get).symbols.name

end Inquiry

end LoopFusion
