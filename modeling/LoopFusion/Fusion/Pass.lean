import LoopFusion.Fusion.Legality
import LoopFusion.Fusion.Rewiring

/-!
Fusing loops until nothing is left to fuse. Each round looks at the loops in preorder and pairs a
loop with the last one seen at its depth; the first legal pair is fused and the facts are computed
anew.
-/

namespace LoopFusion

structure FusionConfig where
  /-- Look again after each fusion. -/
  rescan : Bool
  /-- The number of fusions after which to stop. -/
  maxFusions? : Option Nat
  /-- Pairs of stores must keep their order. -/
  keepOutputs : Bool
  /-- Check the function after each fusion. -/
  verify : Bool
deriving DecidableEq

namespace FusionConfig

def standard : FusionConfig := ⟨true, none, true, true⟩

/-- At most one fusion in a run. -/
def single : FusionConfig := { standard with rescan := false, maxFusions? := some 1 }

/-- Stores may change their order among themselves. -/
def ignoringOutputs : FusionConfig := { standard with keepOutputs := false }

def withMax (c : FusionConfig) (n : Nat) : FusionConfig := { c with maxFusions? := some n }

def exhausted (c : FusionConfig) (fused : Nat) : Bool := c.maxFusions?.any (· ≤ fused)

end FusionConfig

/-- Two fused loops by the names of their headers. -/
structure FusedPair where
  first : String
  second : String
deriving DecidableEq

structure RejectedPair where
  pair : FusedPair
  kind : RejectionKind
  message : String
deriving DecidableEq

structure FusionReport where
  function : String
  changed : Bool
  /-- Pairs examined in all rounds. -/
  candidates : Nat
  fused : List FusedPair
  /-- Pairs rejected in the last round. -/
  rejected : List RejectedPair
  rounds : Nat
deriving DecidableEq

def FusionReport.start (function : String) : FusionReport := ⟨function, false, 0, [], [], 0⟩

/-- A failed fusion with what was being done, outermost first. -/
structure FusionFailure where
  contexts : List String
  error : FusionError

namespace FusionFailure

/-- The messages from the outermost context to the error itself. -/
def chain (e : FusionFailure) : List String := e.contexts ++ [e.error.text]

def text (e : FusionFailure) : String := ": ".intercalate e.chain

def within (context : String) (e : FusionFailure) : FusionFailure :=
  { e with contexts := context :: e.contexts }

end FusionFailure

namespace Pass

/-- One look at the loops of a function. -/
structure Scan where
  candidates : Nat
  /-- Latest first. -/
  rejected : List RejectedPair
  plan? : Option FusionPlan

/-- The last loop seen at each depth, latest first. -/
abbrev LastSeen := List (Nat × Loop)

def headerName (f : Func) (l : Loop) : String := f.blockName l.header

def pairName (f : Func) (a b : Loop) : FusedPair := ⟨headerName f a, headerName f b⟩

/-- The verdict on a pair, with the plan for it. -/
def judge (c : Checker) (a b : Loop) : Inquiry (Except Rejection FusionPlan) := do
  match ← (c.checkCandidate a b).verdict with
  | .error r => return .error r
  | .ok () =>
    match FusionPlan.ofLoops c.func a b with
    | .error e => return .error (.plan e.message)
    | .ok p => return .ok p

def trace (message : String) : Inquiry Unit := Inquiry.write .trace .pass message

/-- Walk the loops from where the scan stands, up to the first legal pair. -/
def walk (c : Checker) (scan : Scan) (seen : LastSeen) : List Loop → Inquiry Scan
  | [] => return scan
  | l :: rest => do
    let depth := c.facts.loops.depth l.id
    let seen' := (depth, l) :: seen
    match (seen.lookup depth).filter (·.parent? = l.parent?) with
    | none => walk c scan seen' rest
    | some prev =>
      let names := pairName c.func prev l
      let both := names.first ++ " and " ++ names.second
      let scan := { scan with candidates := scan.candidates + 1 }
      trace ("candidate found: " ++ both)
      match ← judge c prev l with
      | .ok plan =>
        trace ("candidate " ++ both ++ " is legal")
        return { scan with plan? := some plan }
      | .error r =>
        trace ("candidate " ++ both ++ " is illegal: " ++ r.text)
        walk c { scan with rejected := ⟨names, r.kind, r.message⟩ :: scan.rejected } seen' rest

/-- Analyse a function afresh and look for a legal pair. -/
def scan (config : FusionConfig) (f : Func) : Inquiry Scan := do
  let facts := FlowFacts.ofFunc f
  Inquiry.forget
  walk (.builtIn facts config.keepOutputs) ⟨0, [], none⟩ []
    (facts.loops.preorder.filterMap facts.loops.loop?)

/-- How a run ends: what it did or why it failed, and the function as it is then. -/
structure Outcome where
  result : Except FusionFailure FusionReport
  func : Func

/-- Fuse the pair of a plan and enter it into the report. -/
def fusePair (config : FusionConfig) (plan : FusionPlan) (f : Func) (report : FusionReport) :
    Inquiry (Except FusionFailure (Func × FusionReport)) := do
  let pair : FusedPair := ⟨f.blockName plan.first.header, f.blockName plan.second.header⟩
  match ← plan.fuseChecked f config.verify with
  | .error e =>
    return .error ⟨["fusing " ++ pair.second ++ " into " ++ pair.first ++ " in " ++ f.name], e⟩
  | .ok f' => return .ok (f', { report with fused := report.fused ++ [pair], changed := true })

/-- Rounds of scanning and fusing. -/
def rounds (config : FusionConfig) : Nat → Func → FusionReport → Inquiry Outcome
  | 0, f, report => return ⟨.ok report, f⟩
  | fuel + 1, f, report =>
    if config.exhausted report.fused.length then do
      trace ("fusion budget exhausted after " ++ toString report.fused.length ++ " fusions")
      return ⟨.ok report, f⟩
    else do
      let round := report.rounds + 1
      trace ("scanning " ++ f.name ++ " (round " ++ toString round ++ ")")
      let found ← scan config f
      let report := { report with
        rounds := round
        candidates := report.candidates + found.candidates
        rejected := found.rejected.reverse }
      match found.plan? with
      | none =>
        trace ("no legal candidate left in " ++ f.name)
        return ⟨.ok report, f⟩
      | some plan =>
        match ← fusePair config plan f report with
        | .error e => return ⟨.error e, f⟩
        | .ok (f', report) =>
          if config.rescan then rounds config fuel f' report else return ⟨.ok report, f'⟩

/-- Enough rounds for a function: a fusion takes at least one block out of the layout. -/
def maxRounds (f : Func) : Nat := f.layout.length + 1

/-- Fuse loops until no legal pair is left or the configuration says to stop. -/
def run (config : FusionConfig) (f : Func) : Inquiry Outcome := do
  let outcome ← rounds config (maxRounds f) f (.start f.name)
  match outcome.result with
  | .ok report =>
    if report.candidates = 0 then
      Inquiry.write .debug .pass ("no fusion candidates in " ++ outcome.func.name)
  | .error _ => pure ()
  return outcome

/-- Run on several functions; those after a failure stay as they are. -/
def runAll (config : FusionConfig) :
    List Func → Inquiry (Except FusionFailure (List FusionReport) × List Func)
  | [] => return (.ok [], [])
  | f :: rest => do
    let outcome ← run config f
    match outcome.result with
    | .error e => return (.error (e.within ("in function " ++ f.name)), outcome.func :: rest)
    | .ok report =>
      let (reports, rest) ← runAll config rest
      return (reports.map (report :: ·), outcome.func :: rest)

/-- Whether some pair could be fused. -/
def isLegal (config : FusionConfig) (f : Func) : Inquiry Bool :=
  return (← scan config f).plan?.isSome

/-- Run for the sake of the changed function; whether it did change. -/
def apply (config : FusionConfig) (f : Func) : Inquiry (Except FusionFailure Bool × Func) := do
  let outcome ← run config f
  return (outcome.result.map (·.changed), outcome.func)

def name : String := "loop-fusion-driver"

end Pass

def Module.fuse (config : FusionConfig) (m : Module) :
    Inquiry (Except FusionFailure (List FusionReport) × Module) := do
  let (result, functions) ← Pass.runAll config m.functions
  return (result, { m with functions := functions })

/-- The fusion of one particular pair of loops, given by their headers. -/
structure PairFusion where
  firstHeader : BlockId
  secondHeader : BlockId
  keepOutputs : Bool
  verify : Bool

namespace PairFusion

def ofHeaders (first second : BlockId) : PairFusion := ⟨first, second, true, true⟩

/-- The plan for the pair; none if it is not a legal pair of loops. -/
def plan (p : PairFusion) (f : Func) : Inquiry (Except FusionError (Option FusionPlan)) := do
  let facts := FlowFacts.ofFunc f
  match facts.loops.withHeader? p.firstHeader, facts.loops.withHeader? p.secondHeader with
  | some a, some b =>
    Inquiry.forget
    match ← ((Checker.builtIn facts p.keepOutputs).checkCandidate a b).verdict with
    | .error r =>
      Inquiry.write .debug .fusion
        (FusionError.transformName ++ " not applied in " ++ f.name ++ ": " ++ r.text)
      return .ok none
    | .ok () => return (FusionPlan.ofLoops f a b).map some
  | _, _ => return .ok none

def isLegal (p : PairFusion) (f : Func) : Inquiry Bool := do
  match ← p.plan f with
  | .ok (some _) => return true
  | _ => return false

/-- Fuse the pair if it is legal; whether it was. -/
def apply (p : PairFusion) (f : Func) : Inquiry (Except FusionError Bool × Func) := do
  match ← p.plan f with
  | .error e => return (.error e, f)
  | .ok none => return (.ok false, f)
  | .ok (some plan) =>
    match ← plan.fuseChecked f p.verify with
    | .error e => return (.error e, f)
    | .ok f' => return (.ok true, f')

end PairFusion

end LoopFusion
