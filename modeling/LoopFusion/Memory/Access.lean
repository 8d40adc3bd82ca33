import LoopFusion.Symbolic.Engine

/-!
The memory accesses of a loop and their addresses as recurrences.
-/

namespace LoopFusion

/-- Loads and stores of a loop and the loops inside it, in layout order. -/
structure Accesses where
  loads : List InstId
  stores : List InstId
deriving DecidableEq

def Accesses.ofLoop (f : Func) (l : Loop) : Accesses :=
  let insts := l.blocks.flatMap f.body
  { loads := insts.filter fun i => f.accessesMemory i && !f.writesMemory i
    stores := insts.filter f.writesMemory }

/-- The address `start + stride * k` on iteration `k`. -/
structure AffineAccess where
  start : Poly
  stride : Poly
deriving DecidableEq

def AffineAccess.text (name : Symbol → String) (a : AffineAccess) : String :=
  "\x7b" ++ a.start.text name ++ ",+," ++ a.stride.text name ++ "\x7d"

/-- The address of an access, if it is a recurrence of exactly this loop. -/
def Engine.resolve (e : Engine) (f : Func) (access : InstId) (l : LoopId) :
    Inquiry (Option AffineAccess) :=
  match (f.op? access).bind Operation.address? with
  | none => return none
  | some addr => do
    match ← e.evolution addr (some l) with
    | .recurrence start step l' => return if l' = l then some ⟨start, step⟩ else none
    | _ => return none

end LoopFusion
