import LoopFusion.Fusion.Rejection
import LoopFusion.Memory.Dependence

/-!
Whether two loops, the second right behind the first, may run as one. Each check either passes or
gives its reason; what cannot be proven counts against the loops.
-/

namespace LoopFusion

/-- A check that may ask questions, and ends early with a reason to reject. -/
abbrev Check := ExceptT Rejection Inquiry

namespace Check

def ask {α : Type} (q : Inquiry α) : Check α := ExceptT.lift q

/-- Give up, leaving a record. -/
def reject {α : Type} (r : Rejection) : Check α := do
  ask (Inquiry.write .debug .legality ("fusion rejected: " ++ r.text))
  throw r

def demand (ok : Bool) (r : Rejection) : Check Unit := if ok then pure () else reject r

def need {α : Type} (x : Option α) (r : Rejection) : Check α :=
  match x with
  | some a => pure a
  | none => reject r

def verdict (c : Check Unit) : Inquiry (Except Rejection Unit) := c.run

end Check

/-- The facts, the engine and the oracle that verdicts rest on. -/
structure Checker where
  facts : FlowFacts
  engine : Engine
  oracle : Oracle
  /-- Whether pairs of stores must keep their order. -/
  keepOutputs : Bool

namespace Checker

open Check

/-- The checker that uses the built-in engine and oracle. -/
def builtIn (facts : FlowFacts) (keepOutputs : Bool) : Checker :=
  let engine := Engine.ofFunc facts.func facts.loops
  ⟨facts, engine, .ofEngine facts.func facts.loops engine, keepOutputs⟩

def func (c : Checker) : Func := c.facts.func

def loopName (c : Checker) (l : Loop) : String := "loop " ++ c.func.blockName l.header

/-- The two loops are at one depth inside the same loop. -/
def checkSiblings (c : Checker) (a b : Loop) : Check Unit :=
  demand (a.parent? = b.parent? && c.facts.loops.depth a.id = c.facts.loops.depth b.id)
    (.notSiblings (c.loopName a) (c.loopName b))

/-- Whether one target is in the loop and the other is its exit. -/
def splits (l : Loop) (exit thenDest elseDest : BlockId) : Bool :=
  if l.contains thenDest then elseDest = exit else l.contains elseDest && thenDest = exit

/-- Whether the latch holds only the step of the induction variable and the back edge. -/
def latchOnlySteps (c : Checker) (l : Loop) (latch : BlockId) : Bool :=
  (c.func.body latch).all fun i => some i = l.iv?.map (·.next) || c.func.isTerminator i

/-- The loop is simplified, leaves from its header to one block, and its latch only counts. -/
def checkShape (c : Checker) (l : Loop) : Check Unit := do
  let fault := Rejection.shape (c.loopName l)
  demand l.isSimplified (fault .notSimplified)
  let exit ← need (only? l.exits) (fault .manyExits)
  demand (l.exiting = [l.header]) (fault .exitsOutsideHeader)
  match ← need (c.func.exitOp? l.header) (fault .unterminatedHeader) with
  | .condBr _ t e => demand (splits l exit t e) (fault .headerMissesExit)
  | _ => reject (fault .unconditionalHeader)
  let latch ← need l.latch? (fault .manyLatches)
  demand (c.func.exitOp? latch = some (.br l.header)) (fault .latchBranches)
  demand (c.latchOnlySteps l latch) (fault .latchWorks)

/-- Whether the block between the loops holds nothing but the transfer of control. -/
def handsOff (c : Checker) (b : Loop) (entry : BlockId) : Bool :=
  let body := c.func.body entry
  if b.guard?.isSome then
    body.length ≤ 2 && body.all fun i =>
      match c.func.op? i with
      | some (.compare ..) | some (.condBr ..) => true
      | _ => false
  else body.length = 1

/-- The first loop leaves to the entry of the second, which does nothing of its own. -/
def checkAdjacent (c : Checker) (a b : Loop) : Check Unit := do
  let entry ← need b.entry? (.noEntry (c.loopName b))
  demand (!a.nonLatchExits.isEmpty) (.noExit (c.loopName a))
  match a.nonLatchExits.find? (· ≠ entry) with
  | some exit =>
    reject (.strayExit (c.func.blockName exit) (c.loopName a) (c.func.blockName entry)
      (c.loopName b))
  | none => pure ()
  demand (c.handsOff b entry)
    (.busyHandOff (c.func.blockName entry) (c.func.body entry).length)

def tripCount (c : Checker) (l : Loop) : Check Poly := do
  need (← ask (c.engine.tripCount l.id)) (.noTripCount (c.loopName l))

/-- The trip counts are known and the same. -/
def checkTripCounts (c : Checker) (a b : Loop) : Check Unit := do
  let countA ← c.tripCount a
  let countB ← c.tripCount b
  let textA ← ask (Inquiry.polyText countA)
  let textB ← ask (Inquiry.polyText countB)
  demand (countA = countB) (.tripCounts (c.loopName a) textA (c.loopName b) textB)

/-- Whenever one loop runs, so does the other. -/
def checkFlow (c : Checker) (a b : Loop) : Check Unit :=
  demand (c.facts.dom.dominates a.header b.header && c.facts.postDom.dominates b.header a.header)
    (.flow (c.loopName a) (c.loopName b))

/-- The induction variables take the same values. -/
def checkVariables (c : Checker) (a b : Loop) : Check Unit := do
  let fault := Rejection.counters (c.loopName a) (c.loopName b)
  let iva ← need a.iv? (fault .missing)
  let ivb ← need b.iv? (fault .missing)
  demand (iva.step = ivb.step) (fault .steps)
  let startA ← ask (c.engine.evolution iva.start (some a.id))
  let startB ← ask (c.engine.evolution ivb.start (some b.id))
  match startA.invariant?, startB.invariant? with
  | some s, some t => demand (s = t) (fault .starts)
  | _, _ => reject (.starts (c.loopName a) (c.loopName b))

/-- Follow definitions from the top of a stack. The first one found in `a` is the answer; those in
`b` and those already seen are not followed further. -/
def trace (f : Func) (a b : Loop) : Nat → List InstId → List InstId → Option InstId
  | 0, _, _ => none
  | _ + 1, _, [] => none
  | fuel + 1, seen, d :: stack =>
    if seen.contains d then trace f a b fuel seen stack
    else if (f.owner? d).any a.contains then some d
    else if (f.owner? d).any b.contains then trace f a b fuel (d :: seen) stack
    else trace f a b fuel (d :: seen) ((f.uses d).reverse ++ stack)

/-- The definitions that the second loop reads, latest first. -/
def reads (f : Func) (b : Loop) : List InstId :=
  let start := (b.iv?.bind (·.start.inst?)).toList
  ((b.blocks.flatMap f.body).flatMap f.uses ++ start).reverse

/-- As many steps as a trace can take: one for each definition read and one for each operand. -/
def traceBound (f : Func) (b : Loop) : Nat :=
  f.insts.toList.foldl (fun n i => n + i.op.operands.length) (reads f b).length + 1

/-- A value of the first loop that reaches the second through other definitions. -/
def leak? (f : Func) (a b : Loop) : Option InstId :=
  trace f a b (traceBound f b) [] (reads f b)

/-- The second loop uses nothing that the first computes. -/
def checkScalars (c : Checker) (a b : Loop) : Check Unit :=
  match leak? c.func a b with
  | some d => reject (.scalar (c.loopName b) (c.func.valueName (.inst d)) (c.loopName a))
  | none => pure ()

/-- Pairs of accesses, at least one a store, in the order in which they are examined. -/
def pairs (c : Checker) (a b : Loop) : List (InstId × InstId) :=
  let inA := Accesses.ofLoop c.func a
  let inB := Accesses.ofLoop c.func b
  inA.stores.flatMap (fun s => inB.loads.map (s, ·)) ++
    inA.loads.flatMap (fun l => inB.stores.map (l, ·)) ++
    if c.keepOutputs then inA.stores.flatMap (fun s => inB.stores.map (s, ·)) else []

def inLoop (c : Checker) (access : InstId) (l : Loop) : Bool :=
  (c.func.owner? access).bind c.facts.loops.loopFor? = some l.id

/-- The distance in iterations times the square of the common stride. -/
def scaledDistance? (c : Checker) (first second : AffineAccess) : Option Poly := do
  c.engine.times (← c.engine.minus first.start second.start) first.stride

def warn (message : String) : Check Unit := ask (Inquiry.write .warn .legality message)

/-- Every conflict of a dependence has its second access no earlier than its first. -/
def checkDistance (c : Checker) (a b : Loop) (dep : Dependence) : Check Unit := do
  let what := dep.text c.func
  let fault := Rejection.unproven what (dep.direction ≠ .star)
  demand (c.inLoop dep.src a) (fault (.subLoop (c.loopName a)))
  demand (c.inLoop dep.dst b) (fault (.subLoop (c.loopName b)))
  let first? ← ask (c.engine.resolve c.func dep.src a.id)
  let second? ← ask (c.engine.resolve c.func dep.dst b.id)
  let first ← need first? (fault .notAffine)
  let second ← need second? (fault .notAffine)
  demand (c.engine.nonZero first.stride && c.engine.nonZero second.stride) (fault .zeroStride)
  let strideA ← ask (Inquiry.polyText first.stride)
  let strideB ← ask (Inquiry.polyText second.stride)
  demand (first.stride = second.stride) (fault (.strides strideA strideB))
  let distance ← need (c.scaledDistance? first second) (fault .overflow)
  let text ← ask (Inquiry.polyText distance)
  if c.engine.proves .sge distance .zero then
    if dep.direction = .gt then
      warn (what ++ ": oracle reports a backward dependence but distance " ++ text ++
        " is non-negative")
  else if c.engine.proves .slt distance .zero then do
    if dep.direction = .lt || dep.direction = .eq then
      warn (what ++ ": oracle reports a forward dependence but distance " ++ text ++
        " is negative")
    reject (.negative what text)
  else reject (fault (.unknownSign text))

/-- Whether a reported dependence has to be looked at. -/
def matters (c : Checker) (dep : Dependence) : Bool :=
  dep.kind ≠ .input && !(dep.kind = .output && !c.keepOutputs)

def checkPair (c : Checker) (a b : Loop) : InstId × InstId → Check Unit
  | (first, second) => do
    match ← ask (c.oracle.depends first second true) with
    | none => pure ()
    | some dep =>
      if c.matters dep then
        ask (Inquiry.write .debug .legality ("checking dependence " ++ dep.text c.func))
        c.checkDistance a b dep

/-- No conflict between the loops would run the other way round in one loop. -/
def checkDistances (c : Checker) (a b : Loop) : Check Unit :=
  (c.pairs a b).forM (c.checkPair a b)

/-- All checks in order, up to the first that fails. -/
def checkCandidate (c : Checker) (a b : Loop) : Check Unit := do
  c.checkSiblings a b
  c.checkShape a
  c.checkShape b
  c.checkAdjacent a b
  c.checkTripCounts a b
  c.checkFlow a b
  c.checkVariables a b
  c.checkScalars a b
  c.checkDistances a b

end Checker

end LoopFusion
