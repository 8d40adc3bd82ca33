import LoopFusion.Flow.LoopForest
import LoopFusion.WellFormed

/-!
The recipe for fusing two loops: the blocks to rewire and the blocks to retire, with everything
checked that rewiring relies on.
-/

namespace LoopFusion

/-- What a loop to be rewired may lack. -/
inductive MissingPart
  | latch
  | preheader
  | counter
  | exit
  | terminator
  | condition
  | branch
  | body
  | bodyBeforeLatch

def MissingPart.phrase : MissingPart → String
  | latch => "unique latch"
  | preheader => "preheader"
  | counter => "induction variable"
  | exit => "single exit block"
  | terminator => "header terminator"
  | condition => "conditional header branch"
  | branch => "header branch between body and exit"
  | body => "body block"
  | bodyBeforeLatch => "body between header and latch"

/-- Why a fusion is impossible or was taken back. Blocks and values are given by name. -/
inductive FusionError
  | missing (header : String) (part : MissingPart)
  | latchEntries (latch : String)
  | gap (exit entry : String)
  | busyLatch (latch : String)
  | extraPhis (header : String) (count : Nat)
  | exitPhis (exit : String)
  | retiredStore (block : String)
  | escapes (value block : String)
  | stale
  | broken (violation : String)

inductive FusionErrorKind
  | structural
  | notApplicable
  | verification
deriving DecidableEq

namespace FusionError

def kind : FusionError → FusionErrorKind
  | stale => .notApplicable
  | broken _ => .verification
  | _ => .structural

def message : FusionError → String
  | missing h part => "loop " ++ h ++ " has no " ++ part.phrase
  | latchEntries l => "latch " ++ l ++ " does not have a single predecessor"
  | gap exit entry =>
    "exit " ++ exit ++ " of the first loop is not the entry " ++ entry ++ " of the second"
  | busyLatch l => "latch " ++ l ++ " of the first loop would run after the second body"
  | extraPhis h n =>
    "header " ++ h ++ " has " ++ toString n ++ " phis besides its induction variable"
  | exitPhis exit => "exit block " ++ exit ++ " has phis"
  | retiredStore b => "retired block " ++ b ++ " stores to memory"
  | escapes v b => v ++ " in retired block " ++ b ++ " is used after fusion"
  | stale => "plan refers to blocks that no longer exist"
  | broken violation => "verification failed: " ++ violation

def inTransform (message transform : String) : String := message ++ " in " ++ transform

def transformName : String := "loop-fusion"

def text (e : FusionError) : String := inTransform e.message transformName

end FusionError

/-- The blocks and values of a loop that are rewired. -/
structure LoopShape where
  header : BlockId
  latch : BlockId
  preheader : BlockId
  guard? : Option BlockId
  /-- Where the header goes to stay in the loop. -/
  bodyHead : BlockId
  /-- The only predecessor of the latch. -/
  bodyTail : BlockId
  exit : BlockId
  iv : InstId
  next : InstId
deriving DecidableEq

namespace LoopShape

/-- The target that stays in the loop, when the other one is the exit. -/
def bodyHead? (l : Loop) (exit thenDest elseDest : BlockId) : Option BlockId :=
  match l.contains thenDest, l.contains elseDest with
  | true, false => if elseDest = exit then some thenDest else none
  | false, true => if thenDest = exit then some elseDest else none
  | _, _ => none

def need {α : Type} (x : Option α) (e : FusionError) : Except FusionError α :=
  match x with
  | some a => .ok a
  | none => .error e

def demand (ok : Bool) (e : FusionError) : Except FusionError Unit :=
  if ok then .ok () else .error e

def ofLoop (f : Func) (l : Loop) : Except FusionError LoopShape := do
  let missing := FusionError.missing (f.blockName l.header)
  let latch ← need l.latch? (missing .latch)
  let preheader ← need l.preheader? (missing .preheader)
  let iv ← need l.iv? (missing .counter)
  let exit ← need (only? l.exits) (missing .exit)
  let bodyHead ←
    match ← need (f.exitOp? l.header) (missing .terminator) with
    | .condBr _ t e => need (bodyHead? l exit t e) (missing .branch)
    | _ => throw (missing .condition)
  demand (bodyHead ≠ latch && bodyHead ≠ l.header) (missing .body)
  let bodyTail ← need (only? (f.predecessors latch)) (.latchEntries (f.blockName latch))
  demand (bodyTail ≠ l.header) (missing .bodyBeforeLatch)
  return ⟨l.header, latch, preheader, l.guard?, bodyHead, bodyTail, exit, iv.phi, iv.next⟩

/-- Where control comes from: the guard if there is one, else the preheader. -/
def entry (s : LoopShape) : BlockId := s.guard?.getD s.preheader

end LoopShape

structure FusionPlan where
  first : LoopShape
  second : LoopShape
  /-- Blocks of the second loop other than its header and latch. -/
  secondBody : List BlockId
  /-- Blocks that disappear. -/
  retired : List BlockId
  /-- Other blocks that enter the second loop. -/
  redirected : List BlockId
  /-- Where the guard of the second loop goes to pass it. -/
  bypassTargets : List BlockId
deriving DecidableEq

namespace FusionPlan

open LoopShape (demand)

/-- Blocks of the second loop that fusion makes superfluous. -/
def retiredOf (second : LoopShape) : List BlockId :=
  second.preheader :: second.guard?.toList ++ [second.header, second.latch]

/-- Whether an instruction is used in a block that stays. -/
def isUsedOutside (f : Func) (retired : List BlockId) (i : InstId) : Bool :=
  (f.users (.inst i)).any fun user => !(f.owner? user).any retired.contains

/-- A retired instruction must neither write memory nor be needed later. -/
def checkRetired (f : Func) (retired : List BlockId) (iv : InstId) (b : BlockId) (i : InstId) :
    Except FusionError Unit := do
  demand (!f.writesMemory i) (.retiredStore (f.blockName b))
  demand (!f.hasResult i || i = iv || !isUsedOutside f retired i)
    (.escapes (f.valueName (.inst i)) (f.blockName b))

/-- The plan for fusing `b` into `a`. -/
def ofLoops (f : Func) (a b : Loop) : Except FusionError FusionPlan := do
  let first ← LoopShape.ofLoop f a
  let second ← LoopShape.ofLoop f b
  demand (first.exit = second.entry) (.gap (f.blockName first.exit) (f.blockName second.entry))
  demand ((f.body first.latch).all fun i => i = first.next || f.isTerminator i)
    (.busyLatch (f.blockName first.latch))
  demand (f.phis second.header = [second.iv])
    (.extraPhis (f.blockName second.header) ((f.phis second.header).length - 1))
  demand (f.phis second.exit).isEmpty (.exitPhis (f.blockName second.exit))
  let retired := retiredOf second
  retired.forM fun r => (f.body r).forM (checkRetired f retired second.iv r)
  return {
    first := first
    second := second
    secondBody := b.bodyBlocks
    retired := retired
    redirected := (f.predecessors second.entry).filter fun p =>
      p ≠ first.header && !retired.contains p
    bypassTargets := (second.guard?.elim [] f.successors).filter fun s => !retired.contains s }

/-- Whether every block that the plan touches still exists. -/
def applies (p : FusionPlan) (f : Func) : Bool :=
  ([p.first.header, p.first.latch, p.first.bodyTail, p.second.bodyTail, p.second.exit] ++
      p.retired ++ p.secondBody).all f.contains &&
    (f.terminator? p.second.header).isSome

end FusionPlan

end LoopFusion
