import LoopFusion.Session
import LoopFusion.Symbolic.TripCount

/-!
Questions about values in loops, and the built-in way to answer them: fold arithmetic as far as it
stays an invariant or a recurrence, and give a name to what does not vary.
-/

namespace LoopFusion

/-- Something that answers symbolic questions. -/
structure Engine where
  /-- How a value evolves as seen from inside a loop, or from outside all loops. -/
  evolution : Value → Option LoopId → Inquiry Evolution
  /-- How often a loop's back edge is taken. -/
  tripCount : LoopId → Inquiry (Option Poly)
  nonZero : Poly → Bool
  /-- Whether a comparison certainly holds. -/
  proves : Comparison → Poly → Poly → Bool
  minus : Poly → Poly → Option Poly
  times : Poly → Poly → Option Poly

namespace Poly

/-- Whether the polynomial is a constant other than zero. -/
def isNonZero (p : Poly) : Bool := p.const?.any (· ≠ 0)

/-- Whether the difference is a constant that settles the comparison. -/
def proves (test : Comparison) (p q : Poly) : Bool :=
  ((p.sub? q).bind const?).any fun d => test.holds d 0

end Poly

namespace Func

/-- The name of a value as an unknown; instructions carry their number. -/
def symbolName (f : Func) : Value → String
  | .inst i => f.valueName (.inst i) ++ "#" ++ toString i.index
  | v => f.valueName v

/-- A value as an unknown. -/
def unknown (f : Func) (v : Value) : Inquiry Poly :=
  return .symbol (← Inquiry.intern (f.symbolName v))

/-- The array parameter at the root of an address, within `fuel` steps. -/
def rootOf? (f : Func) : Nat → Value → Option Nat
  | 0, _ => none
  | _ + 1, .const _ => none
  | _ + 1, .param k => if f.paramType? k = some .ptr then some k else none
  | fuel + 1, .inst i =>
    match f.op? i with
    | some (.gep base _) => rootOf? f fuel base
    | _ => none

/-- The array parameter at the root of an address. -/
def basePointer? (f : Func) (addr : Value) : Option Nat := f.rootOf? 64 addr

end Func

namespace Describe

/-- Where a definition stands as seen from a scope. -/
inductive Standing
  /-- Computed before the scope is entered. -/
  | before
  /-- Computed in the scope itself. -/
  | within (l : LoopId)
  /-- Computed in another loop. -/
  | elsewhere

def standing (t : LoopForest) (scope : Option LoopId) (b : BlockId) : Standing :=
  match t.loopFor? b, scope with
  | none, _ => .before
  | some l, some s =>
    if l = s then .within l
    else if t.encloses l s then .before
    else .elsewhere
  | some _, none => .elsewhere

/-- Combine what is known of the operands of an arithmetic operation. -/
def combine (eval : Value → Inquiry Evolution) : Operation → Inquiry Evolution
  | .binary op l r => do
    let a ← eval l
    let b ← eval r
    return .apply op a b
  | .gep base offset => do
    let a ← eval base
    let b ← eval offset
    return a.add b
  | _ => return .unknown

/-- A value fixed before the scope: folded if possible, else an unknown of its own. -/
def fixed (f : Func) (eval : Value → Inquiry Evolution) (i : InstId) (op : Operation) :
    Inquiry Evolution := do
  match ← combine eval op with
  | .invariant e => return .invariant e
  | _ => return .invariant (← f.unknown (.inst i))

/-- A value computed on every iteration of `l`. -/
def moving (t : LoopForest) (eval : Value → Inquiry Evolution) (l : LoopId) (i : InstId) :
    Operation → Inquiry Evolution
  | .phi _ =>
    match (t.loop? l).bind (·.iv?) with
    | some iv =>
      if iv.phi = i then do
        match ← eval iv.start with
        | .invariant start => return .recur start (.const iv.step) l
        | _ => return .unknown
      else return .unknown
    | none => return .unknown
  | op => combine eval op

/-- One instruction, given how to describe its operands. -/
def inst (f : Func) (t : LoopForest) (eval : Value → Inquiry Evolution) (scope : Option LoopId)
    (i : InstId) (inst : Inst) : Inquiry Evolution :=
  match standing t scope inst.block with
  | .before => fixed f eval i inst.op
  | .within l => moving t eval l i inst.op
  | .elsewhere => return .unknown

/-- A value, looking through at most `budget` instructions in a row. Answers are remembered. -/
def value (f : Func) (t : LoopForest) : Nat → Value → Option LoopId → Inquiry Evolution
  | _, .const c, _ => return .invariant (.const c.toInt)
  | _, .param k, _ => return .invariant (← f.unknown (.param k))
  | 0, .inst _, _ => return .unknown
  | budget + 1, .inst i, scope => do
    match (← get).remembered? i scope, f.inst? i with
    | some e, _ => return e
    | none, none => return .unknown
    | none, some entry =>
      let e ← inst f t (fun v => value f t budget v scope) scope i entry
      Inquiry.remember i scope e
      return e

/-- How many instructions in a row are looked through. -/
def maxDepth : Nat := 64

def tripCount (f : Func) (t : LoopForest) (l : LoopId) : Inquiry (Option Poly) :=
  match (t.loop? l).bind (StayTest.ofLoop? f) with
  | none => return none
  | some stay => do
    let bound ← value f t (maxDepth + 1) stay.bound (some l)
    let start ← value f t (maxDepth + 1) stay.iv.start (some l)
    match bound, start with
    | .invariant b, .invariant s => return tripCount? stay.test s b stay.iv.step
    | _, _ => return none

end Describe

/-- The built-in engine for a function and its loops. -/
def Engine.ofFunc (f : Func) (t : LoopForest) : Engine where
  evolution := Describe.value f t (Describe.maxDepth + 1)
  tripCount := Describe.tripCount f t
  nonZero := Poly.isNonZero
  proves := Poly.proves
  minus := Poly.sub?
  times := Poly.mul?

end LoopFusion
