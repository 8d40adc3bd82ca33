import LoopFusion.Fusion.Plan
import LoopFusion.Ir.Edit
import LoopFusion.Session

/-!
Carrying out a plan. The first loop keeps its header, latch and induction variable; the body of the
second runs between the first body and the first latch.
-/

namespace LoopFusion.FusionPlan

/-- Leave the first header to the exit of the second loop, and chain the two bodies. -/
def chainBodies (p : FusionPlan) (f : Func) : Func :=
  let (a, b) := (p.first, p.second)
  let f := (f.replaceSuccessor a.header b.entry b.exit).2
  let f := (f.setTerminator b.header (.br b.latch)).2
  let f := (f.replaceSuccessor a.bodyTail a.latch b.bodyHead).2
  let f := f.replacePhiIncomingBlock b.bodyHead b.header a.bodyTail
  let f := (f.replaceSuccessor b.bodyTail b.latch a.latch).2
  f.replacePhiIncomingBlock a.latch a.bodyTail b.bodyTail

/-- Send other blocks past the second loop and forget the guard's edge. -/
def redirect (p : FusionPlan) (f : Func) : Func :=
  let f := p.redirected.foldl
    (fun f pred => (f.replaceSuccessor pred p.second.entry p.second.exit).2) f
  match p.second.guard? with
  | some guard => p.bypassTargets.foldl (fun f t => f.removePhiIncoming t guard) f
  | none => f

/-- Drop the retired blocks and put the second body before the first latch. -/
def settleLayout (p : FusionPlan) (f : Func) : Func :=
  (p.retired.foldl Func.removeBlock f).moveBlocksBefore p.secondBody p.first.latch

/-- The fused function, and how many uses of the second induction variable there were. -/
def rewired (p : FusionPlan) (f : Func) : Nat × Func :=
  let (n, f) := f.replaceAllUses (.inst p.second.iv) (.inst p.first.iv)
  (n, p.settleLayout (p.redirect (p.chainBodies f)))

/-- Fuse, if the plan still applies. -/
def fuse (p : FusionPlan) (f : Func) : Inquiry (Except FusionError Func) :=
  if p.applies f then do
    let (n, f') := p.rewired f
    Inquiry.write .debug .fusion ("replaced " ++ toString n ++ " uses of " ++
      f.valueName (.inst p.second.iv) ++ " with " ++ f.valueName (.inst p.first.iv))
    return .ok f'
  else return .error .stale

/-- Fuse and, if asked to, refuse a result that is not well formed. -/
def fuseChecked (p : FusionPlan) (f : Func) (verify : Bool) :
    Inquiry (Except FusionError Func) := do
  match ← p.fuse f with
  | .error e => return .error e
  | .ok f' =>
    match if verify then f'.verify else .ok () with
    | .error v => return .error (.broken v.message)
    | .ok () =>
      Inquiry.write .info .fusion ("fused loop " ++ f'.blockName p.second.header ++
        " into loop " ++ f'.blockName p.first.header ++ " in " ++ f'.name)
      return .ok f'

end LoopFusion.FusionPlan
