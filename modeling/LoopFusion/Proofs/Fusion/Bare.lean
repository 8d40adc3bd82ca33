import LoopFusion.Proofs.Flow.Discovery
import LoopFusion.Proofs.Fusion.Run

/-!
What fusion does not have to deal with. Nothing guards a loop of an accepted pair, and only dead
blocks lead to the second besides the first. So the plan retires three blocks, no edge is forgotten,
and only dead blocks are redirected.
-/

namespace LoopFusion

open Relation LoopFusion.Flow Inquiry

namespace FusionPlan

variable {f : Func} {e : BlockId} {a b : Loop} {p : FusionPlan} {c : Checker}

end FusionPlan

namespace Pass

/-- The functions that a run of the driver goes through, fusing as it goes. -/
inductive Visits (config : FusionConfig) (f : Func) : Func → Prop
  | start : Visits config f f
  | fuse {g g' : Func} {p : FusionPlan} {s s' : Session} :
    Visits config f g → (scan config g s).1.plan? = some p →
      (p.fuseChecked g config.verify s').1 = .ok g' → Visits config f g'

variable {config : FusionConfig} {f g : Func} {e : BlockId} {report : FusionReport}

theorem Visits.wellFormed (h : Visits config f g) (hw : f.WellFormed e) : g.WellFormed e := by
  induction h with
  | start => exact hw
  | @fuse g g' p s s' _ hscan hfuse ih =>
    obtain ⟨a, b, hp⟩ := scan_ensures ih s p hscan
    have hfused := FusionPlan.fuseChecked_ensures ih hp.fits hp.clean config.verify s'
    obtain rfl := Except.ok.inj (hfuse.symm.trans hfused)
    exact FusionPlan.wellFormed_fused ih hp.fits hp.clean

end Pass

namespace Checker

variable {f : Func} {e : BlockId} {c : Checker} {a b : Loop}

theorem Accepts.entered (h : c.Accepts f e a b) : ∃ pre, b.entry? = some pre ∧
    b.preheader? = some pre ∧ ∀ q, f.Reached q → f.Edge q pre → q = a.header := by
  obtain ⟨preA, mA, mid, mB, exitB, ga, gb⟩ := h.exists_gates
  exact ⟨mid, h.entry?_eq ga, gb.preheader, fun q hq hqm =>
    h.alone ga gb ((Func.reached_iff h.entry).1 hq) hqm⟩

end Checker

end LoopFusion
