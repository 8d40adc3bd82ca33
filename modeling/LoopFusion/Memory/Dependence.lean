import LoopFusion.Arith.Diophantine
import LoopFusion.Memory.Access

/-!
Whether two memory accesses may touch the same element. Arrays are told apart by their parameters;
within one array the two addresses are compared as linear functions of an iteration number, as if
both accesses stood in one loop.
-/

namespace LoopFusion

/-- What the second access does after what the first did. -/
inductive DependenceKind
  | flow
  | anti
  | output
  | input
deriving DecidableEq

namespace DependenceKind

def ofWrites (srcWrites dstWrites : Bool) : DependenceKind :=
  match srcWrites, dstWrites with
  | true, false => flow
  | false, true => anti
  | true, true => output
  | false, false => input

/-- Whether the order of the two accesses matters. -/
def constrains (k : DependenceKind) : Bool := k ≠ input

def shortName : DependenceKind → String
  | flow => "RAW"
  | anti => "WAR"
  | output => "WAW"
  | input => "RAR"

end DependenceKind

/-- Whether the second access comes in a later, the same or an earlier iteration. -/
inductive Direction
  | lt
  | eq
  | gt
  | star
deriving DecidableEq

namespace Direction

def mark : Direction → String
  | lt => "<"
  | eq => "="
  | gt => ">"
  | star => "*"

def ofDistance (d : Int) : Direction := if d < 0 then gt else if d = 0 then eq else lt

end Direction

structure Dependence where
  src : InstId
  dst : InstId
  kind : DependenceKind
  direction : Direction
  /-- The iteration of `dst` minus that of `src`, when it is always the same. -/
  distance? : Option Int
  /-- Whether the accesses could not be traced to arrays. -/
  confused : Bool
deriving DecidableEq

namespace Dependence

def unresolved (src dst : InstId) (kind : DependenceKind) (confused : Bool) : Dependence :=
  ⟨src, dst, kind, .star, none, confused⟩

def atDistance (src dst : InstId) (kind : DependenceKind) (d : Int) : Dependence :=
  ⟨src, dst, kind, .ofDistance d, some d, false⟩

def text (f : Func) (d : Dependence) : String :=
  f.valueName (.inst d.src) ++ " -> " ++ f.valueName (.inst d.dst) ++ " [" ++ d.kind.shortName ++
    "] dir=<" ++ d.direction.mark ++ "> dist=" ++ d.distance?.elim "?" toString ++
    if d.confused then " confused" else ""

end Dependence

/-- Something that reports possible conflicts between two accesses. Without the flag, conflicts
within one iteration are not reported. -/
structure Oracle where
  depends : InstId → InstId → Bool → Inquiry (Option Dependence)

/-- How the solutions of `a * ks - b * kd = c` lie. -/
inductive Conflict
  | never
  /-- All solutions have `kd - ks = d`. -/
  | always (d : Int)
  | possible

/-- Classify the solutions, with `ks` and `kd` at most the given bounds when both are known. -/
def Conflict.ofEquation (a b c : Int) (srcMax? dstMax? : Option Int) : Conflict :=
  match checked (-b), checked (-c) with
  | some negB, some negC =>
    if !Diophantine.gcdTest [a, negB] c then never
    else if outOfRange negB negC then never
    else if a ≠ b || a = 0 then possible
    else if negC % a ≠ 0 then never
    else (checked (negC / a)).elim possible always
  | _, _ => possible
where
  outOfRange (negB negC : Int) : Bool :=
    match srcMax?, dstMax? with
    | some ns, some nd =>
      ns < 0 || nd < 0 || !Diophantine.banerjeeTest [a, negB] negC [0, 0] [ns, nd]
    | _, _ => false

/-- An address as an offset `start + stride * k` into its array. -/
structure Subscript where
  start : Poly
  stride : Poly
  /-- The largest `k`, when the trip count is a known number. -/
  last? : Option Int

namespace Subscript

/-- The start and the stride of an address, unless nothing is known of it. -/
def parts? : Evolution → Option (Poly × Poly)
  | .invariant e => some (e, .zero)
  | .recurrence start step _ => some (start, step)
  | .unknown => none

/-- The largest iteration number in a loop with this trip count. -/
def last (e : Engine) (scope : Option LoopId) : Inquiry (Option Int) :=
  match scope with
  | none => return none
  | some l => return ((← e.tripCount l).bind Poly.const?).map (· - 1)

def ofAccess (f : Func) (t : LoopForest) (e : Engine) (access : InstId) :
    Inquiry (Option Subscript) :=
  match (f.op? access).bind Operation.address? with
  | none => return none
  | some addr =>
    match f.basePointer? addr with
    | none => return none
    | some base => do
      let scope := (f.owner? access).bind t.loopFor?
      let baseSym ← f.unknown (.param base)
      match parts? (← e.evolution addr scope) with
      | none => return none
      | some (start, stride) =>
        match start.sub? baseSym with
        | none => return none
        | some start => return some ⟨start, stride, ← last e scope⟩

/-- The equation between two subscripts, when all its coefficients are numbers. -/
def conflict (s d : Subscript) : Conflict :=
  match (d.start.sub? s.start).bind Poly.const?, s.stride.const?, d.stride.const? with
  | some c, some a, some b => .ofEquation a b c s.last? d.last?
  | _, _, _ => .possible

end Subscript

namespace Oracle

/-- Whether two accesses touch different arrays, the same, or cannot be told. -/
def sameArray? (f : Func) (src dst : Operation) : Option Bool := do
  let a ← f.basePointer? (← src.address?)
  let b ← f.basePointer? (← dst.address?)
  return a = b

def report (src dst : InstId) (kind : DependenceKind) (sameIteration : Bool) :
    Conflict → Option Dependence
  | .never => none
  | .possible => some (.unresolved src dst kind false)
  | .always d => if d = 0 && !sameIteration then none else some (.atDistance src dst kind d)

def answer (f : Func) (t : LoopForest) (e : Engine) (src dst : InstId) (sameIteration : Bool) :
    Inquiry (Option Dependence) :=
  match f.op? src, f.op? dst with
  | some srcOp, some dstOp =>
    if !srcOp.accessesMemory || !dstOp.accessesMemory then return none
    else
      let kind := DependenceKind.ofWrites srcOp.writesMemory dstOp.writesMemory
      match sameArray? f srcOp dstOp with
      | none => return some (.unresolved src dst kind true)
      | some false => return none
      | some true => do
        let s ← Subscript.ofAccess f t e src
        let d ← Subscript.ofAccess f t e dst
        match s, d with
        | some s, some d => return report src dst kind sameIteration (s.conflict d)
        | _, _ => return some (.unresolved src dst kind false)
  | _, _ => return none

/-- The built-in oracle for a function, its loops and an engine. -/
def ofEngine (f : Func) (t : LoopForest) (e : Engine) : Oracle := ⟨answer f t e⟩

end Oracle

end LoopFusion
