import LoopFusion.Flow.LoopForest
import LoopFusion.Symbolic.Poly

/-!
How a value evolves while control stays in a loop: it keeps one value, or it starts somewhere and
moves by the same step on every iteration, or nothing is known.
-/

namespace LoopFusion

inductive Evolution
  /-- The same value throughout. -/
  | invariant (e : Poly)
  /-- `start + step * k` on iteration `k` of `loop`. -/
  | recurrence (start step : Poly) (loop : LoopId)
  | unknown
deriving DecidableEq

namespace Evolution

def isKnown (e : Evolution) : Bool := e ≠ unknown

def invariant? : Evolution → Option Poly
  | invariant e => some e
  | _ => none

/-- A recurrence; a zero step makes it an invariant. -/
def recur (start step : Poly) (loop : LoopId) : Evolution :=
  if step.isZero then invariant start else recurrence start step loop

def ofInvariant? (e : Option Poly) : Evolution := e.elim unknown invariant

def ofRecurrence? (start step : Option Poly) (loop : LoopId) : Evolution :=
  match start, step with
  | some s, some t => recur s t loop
  | _, _ => unknown

def add : Evolution → Evolution → Evolution
  | invariant a, invariant b => ofInvariant? (a.add? b)
  | recurrence s t l, invariant b => ofRecurrence? (s.add? b) (some t) l
  | invariant a, recurrence s t l => ofRecurrence? (s.add? a) (some t) l
  | recurrence s t l, recurrence s' t' l' =>
    if l = l' then ofRecurrence? (s.add? s') (t.add? t') l else unknown
  | _, _ => unknown

def neg : Evolution → Evolution
  | invariant a => ofInvariant? a.neg?
  | recurrence s t l => ofRecurrence? s.neg? t.neg? l
  | unknown => unknown

def sub (a b : Evolution) : Evolution := a.add b.neg

def mul : Evolution → Evolution → Evolution
  | invariant a, invariant b => ofInvariant? (a.mul? b)
  | recurrence s t l, invariant b => ofRecurrence? (s.mul? b) (t.mul? b) l
  | invariant a, recurrence s t l => ofRecurrence? (s.mul? a) (t.mul? a) l
  | _, _ => unknown

def apply : BinaryOp → Evolution → Evolution → Evolution
  | .add => add
  | .sub => sub
  | .mul => mul

def text (name : Symbol → String) : Evolution → String
  | invariant e => e.text name
  | recurrence s t l =>
    "\x7b" ++ s.text name ++ ",+," ++ t.text name ++ "\x7d<" ++ l.text ++ ">"
  | unknown => "***COULDNOTCOMPUTE***"

end Evolution

end LoopFusion
