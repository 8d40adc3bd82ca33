import Mathlib.Order.WellFounded
import LoopFusion.Proofs.Flow.Loops

/-!
Reducible flow graphs: an edge that does not go forward in reverse postorder goes back to a block
that dominates its source. Then every cycle passes the header of a loop around each of its blocks.
-/

namespace LoopFusion

open Relation LoopFusion.Flow

/-- Every edge goes forward in reverse postorder, or back to a dominator. -/
def Func.reducible (f : Func) : Bool :=
  let g := Cfg.ofFunc f
  g.order.all fun a => (g.succs a).all fun b =>
    g.order.idxOf a < g.order.idxOf b || (Dominators.ofCfg g).dominates b a

theorem Func.forward_or_back {f : Func} {e a b : BlockId} (hf : f.InArena)
    (he : f.entry? = some e) (h : f.reducible) (ha : f.Leads e a) (hab : f.Edge a b) :
    (Cfg.ofFunc f).order.idxOf a < (Cfg.ofFunc f).order.idxOf b ∨ Dom f.Edge e b a := by
  have h := List.all_eq_true.1 (List.all_eq_true.1 h a ((Cfg.mem_order hf he).2 ha)) b
    (Cfg.mem_succs.2 hab)
  rwa [Bool.or_eq_true, decide_eq_true_eq, Dominators.dominates_iff hf he] at h

namespace Flow

variable {ν : Type} {E : ν → ν → Prop} {P : ν → Prop} {r x y z : ν}

theorem Walk.onWay (h : Walk E P y z) (h' : Walk E P z x) :
    Walk E (fun w => Walk E P y w ∧ Walk E P w x) y z := by
  induction h with
  | refl hy => exact .refl ⟨.refl hy, h'⟩
  | tail hw he hp ih => exact .tail (ih (.head hw.last he h')) he ⟨.tail hw he hp, h'⟩

/-- If edges that do not increase the rank are back edges, then the lowest node of a cycle is the
header of a loop around all of it. -/
theorem exists_header_of_cycle {rank : ν → Nat}
    (hback : ∀ a b, ReflTransGen E r a → E a b → rank a < rank b ∨ Dom E r b a)
    (hx : ReflTransGen E r x) (hxy : E x y) (hw : Walk E P y x) :
    ∃ h, P h ∧ InLoop E r h x := by
  obtain ⟨h, ⟨hyh, hhx⟩, hmin⟩ := (measure rank).wf.has_min
    {z | Walk E P y z ∧ Walk E P z x} ⟨x, hw, .refl hw.last⟩
  have hreach : ∀ {z}, Walk E P y z → ReflTransGen E r z := fun hz =>
    (hx.tail hxy).trans hz.reach
  have henter : ∀ {z}, Walk E P y z → Walk E P z x → E z h → Back E r z h := by
    intro z hz hz' hzh
    refine ⟨hzh, (hback z h (hreach hz) hzh).resolve_left (hmin z ⟨hz, hz'⟩)⟩
  have hcycle : Walk E (fun w => Walk E P y w ∧ Walk E P w x) x h :=
    .head ⟨hw, .refl hw.last⟩ hxy (hyh.onWay hhx)
  refine ⟨h, hyh.last, ?_⟩
  rcases hcycle.firstVisit h with hn | ⟨rfl | ⟨z, hz, hzh⟩, -⟩
  · exact absurd rfl hn.last.2
  · rcases hw.onWay (.refl hw.last) with hyx | ⟨hz, hzx, -⟩
    · exact ((henter (.refl hyx.1.last) hyx.2 hxy)).inLoop.header
    · exact (henter hz.last.1 hz.last.2 hzx).inLoop.header
  · have hb := henter hz.last.1.1 hz.last.1.2 hzh
    exact (hb.inLoop.walk_back hx (hz.mono fun _ hw => hw.2)).first.1

end Flow

theorem Func.header_of_cycle {f : Func} {e b y : BlockId} {P : BlockId → Prop} (hf : f.InArena)
    (he : f.entry? = some e) (h : f.reducible) (hb : f.Leads e b) (hby : f.Edge b y)
    (hw : Walk f.Edge P y b) : ∃ x, P x ∧ f.InLoop e x b :=
  exists_header_of_cycle (fun _ _ ha hab => forward_or_back hf he h ha hab) hb hby hw

end LoopFusion
