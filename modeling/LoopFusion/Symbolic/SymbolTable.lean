/-!
Names for unknowns. A symbol is the position of its name in the table, so symbols are numbered in
the order in which their names are first mentioned.
-/

namespace LoopFusion

abbrev Symbol := Nat

structure SymbolTable where
  names : List String

namespace SymbolTable

def empty : SymbolTable := ⟨[]⟩

def name? (t : SymbolTable) (s : Symbol) : Option String := t.names[s]?

/-- The name of a symbol, or a placeholder for one that the table does not know. -/
def name (t : SymbolTable) (s : Symbol) : String := (t.name? s).getD ("?" ++ toString s)

/-- The symbol for `n`, adding the name at the end of the table if it is new. -/
def intern (t : SymbolTable) (n : String) : Symbol × SymbolTable :=
  match t.names.idxOf? n with
  | some s => (s, t)
  | none => (t.names.length, ⟨t.names ++ [n]⟩)

/-- The symbols for several names, in order. -/
def internAll : List String → SymbolTable → List Symbol × SymbolTable
  | [], t => ([], t)
  | n :: ns, t =>
    let (s, t) := t.intern n
    let (ss, t) := internAll ns t
    (s :: ss, t)

/-- A symbol shown with its number. -/
def describe (t : SymbolTable) (s : Symbol) : String :=
  "Symbol(" ++ toString s ++ ":" ++ t.name s ++ ")"

end SymbolTable

end LoopFusion
