import LoopFusion.Flow.LoopForest
import LoopFusion.Symbolic.Poly

/-!
How often a counting loop runs: for numbers by division, for polynomials by subtraction when the
step is one up or one down.
-/

namespace LoopFusion

/-- The number of steps that start in a value for which the test holds, counting from `start`;
none when the test never fails or the number does not fit a word. -/
def stepsWhile? (test : Comparison) (start bound step : Int) : Option Int :=
  if !test.holds start bound then some 0
  else
    match test with
    | .slt => if 0 < step then checked ((bound - start + step - 1) / step) else none
    | .sle => if 0 < step then checked ((bound - start) / step + 1) else none
    | .sgt => if step < 0 then checked ((start - bound + -step - 1) / -step) else none
    | .sge => if step < 0 then checked ((start - bound) / -step + 1) else none
    | .ne =>
      if (bound - start) % step = 0 && 0 < (bound - start) / step then
        checked ((bound - start) / step)
      else none
    | .eq => some 1

/-- The count for polynomials, exact whenever it is not negative. -/
def symbolicSteps? (test : Comparison) (start bound : Poly) (step : Int) : Option Poly := do
  let up ← bound.sub? start
  let down ← start.sub? bound
  match test, step with
  | .slt, 1 | .ne, 1 => some up
  | .sle, 1 => up.add? (.const 1)
  | .sgt, -1 | .ne, -1 => some down
  | .sge, -1 => down.add? (.const 1)
  | _, _ => none

def tripCount? (test : Comparison) (start bound : Poly) (step : Int) : Option Poly :=
  match start.const?, bound.const? with
  | some s, some b => (stepsWhile? test s b step).map .const
  | _, _ => symbolicSteps? test start bound step

/-- The test `iv test bound` under which control stays in the loop. -/
structure StayTest where
  iv : InductionVariable
  test : Comparison
  bound : Value

namespace StayTest

/-- The comparison read with the induction variable on the left. -/
def orient? (iv : InductionVariable) : Operation → Option (Comparison × Value)
  | .compare p l r =>
    if l = iv.value then some (p, r)
    else if r = iv.value then some (p.swapped, l)
    else none
  | _ => none

/-- Whether the branch stays in the loop when its condition holds. -/
def stayOnTrue? (l : Loop) (thenDest elseDest : BlockId) : Option Bool :=
  match l.contains thenDest, l.contains elseDest with
  | true, false => some true
  | false, true => some false
  | _, _ => none

/-- The test of a loop that is left only from its header. -/
def ofLoop? (f : Func) (l : Loop) : Option StayTest := do
  let iv ← l.iv?
  guard (l.exiting = [l.header])
  match ← f.exitOp? l.header with
  | .condBr cond t e =>
    let stayOnTrue ← stayOnTrue? l t e
    let (p, bound) ← orient? iv (← f.op? (← cond.inst?))
    return ⟨iv, if stayOnTrue then p else p.inverse, bound⟩
  | _ => none

end StayTest

end LoopFusion
