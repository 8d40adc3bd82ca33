import LoopFusion.Proofs.Fusion.FusedVerified

/-!
What fusion spares. The instructions of the blocks that stay are where they were and do what they
did, but for one counter in place of the other and the few branches and labels that chain the two
bodies; and of the blocks themselves only those of the second body have moved.
-/

namespace LoopFusion

open LoopFusion.Flow

namespace FusionPlan

/-- The predecessor that a phi of `b` names instead. -/
def headLabel (p : FusionPlan) (b : BlockId) : BlockId → BlockId :=
  if b = p.second.bodyHead then replace p.second.header p.first.bodyTail else id

/-- What `f'` has left of `f`, where `f'` is `f` with the loops of `p` fused. -/
structure Spares (p : FusionPlan) (f f' : Func) : Prop where
  blocks : f'.blocks.size = f.blocks.size
  insts : f'.insts.size = f.insts.size
  body : ∀ b, f'.body b = f.body b
  owner : ∀ i, f'.owner? i = f.owner? i
  label : ∀ i, (f'.inst? i).map (·.name) = (f.inst? i).map (·.name)
  live : ∀ i, i ∈ f'.liveInsts ↔ i ∈ f.liveInsts ∧ ∀ r ∈ p.retired, i ∉ f.body r
  nodup : f'.liveInsts.Nodup
  op : ∀ b ∈ f'.layout, ∀ i ∈ f'.body b, f'.op? i = (f.op? i).map fun op =>
    ((op.mapOperands p.renamed).mapTargets (p.retarget b)).mapIncoming
      (List.map fun (q, v) => (p.headLabel b q, v))
  /-- Away from the blocks that are chained nothing but the counter is replaced. -/
  plain : ∀ b ∈ f'.layout, b ≠ p.first.header → b ∉ p.redirected → b ≠ p.first.bodyTail →
    b ≠ p.second.bodyTail → b ≠ p.second.bodyHead → ∀ i ∈ f'.body b,
      f'.op? i = (f.op? i).map (.mapOperands p.renamed)
  /-- The second body, in its order, stands right before the first latch. -/
  layout : ∃ pre post, (f.layout.filter fun b => !p.retired.contains b && !p.secondBody.contains b) =
      pre ++ p.first.latch :: post ∧
    f'.layout = pre ++ (f.layout.filter fun b => p.secondBody.contains b) ++ p.first.latch :: post

variable {p : FusionPlan} {f : Func} {e b : BlockId} {i : InstId} {op : Operation}

/-- The first latch has no phis to name other predecessors. -/
theorem fusedOp_eq (hc : p.Clean f) (hi : i ∈ f.body b) (hop : f.op? i = some op) :
    p.fusedOp b op = ((op.mapOperands p.renamed).mapTargets (p.retarget b)).mapIncoming
      (List.map fun (q, v) => (p.headLabel b q, v)) := by
  rw [fusedOp]
  by_cases hb : b = p.first.latch
  · subst b
    have hphi : ¬ op.isPhi := by
      rw [← Func.isPhi_of_op? hop]
      exact hc.latch i hi
    have hphi : ¬ ((op.mapOperands p.renamed).mapTargets (p.retarget p.first.latch)).isPhi := by
      simpa using hphi
    rw [Operation.mapIncoming_of_not_phi _ hphi, Operation.mapIncoming_of_not_phi _ hphi]
  · have hlabel : p.relabel b = p.headLabel b := by simp [relabel, headLabel, hb]
    rw [hlabel]

section Fits

variable (hw : f.WellFormed e) (hp : p.Fits f e)

include hw hp

theorem mem_liveInsts_fused : i ∈ (p.fused f).liveInsts ↔
    i ∈ f.liveInsts ∧ ∀ r ∈ p.retired, i ∉ f.body r := by
  simp only [Func.liveInsts, List.mem_flatMap, body_fused hw hp, mem_layout_fused hw hp]
  constructor
  · rintro ⟨b, ⟨hb, hkeep⟩, hi⟩
    refine ⟨⟨b, hb, hi⟩, fun r hr hir => ?_⟩
    have hrb : r ∈ f.layout := by
      rcases hp.mem_retired.1 hr with rfl | rfl | rfl
      · exact hp.second.preheader_edge.1
      · exact hp.second.exit_edge.1
      · exact hp.second.latch_edge.1
    exact hkeep (hw.block_unique hb hrb hi hir ▸ hr)
  · rintro ⟨⟨b, hb, hi⟩, hkeep⟩
    exact ⟨b, ⟨hb, fun hr => hkeep b hr hi⟩, hi⟩

theorem op?_fused_live (hc : p.Clean f) (hb : b ∈ (p.fused f).layout)
    (hi : i ∈ (p.fused f).body b) : (p.fused f).op? i = (f.op? i).map fun op =>
      ((op.mapOperands p.renamed).mapTargets (p.retarget b)).mapIncoming
        (List.map fun (q, v) => (p.headLabel b q, v)) := by
  obtain ⟨hbl, hr⟩ := (mem_layout_fused hw hp).1 hb
  rw [body_fused hw hp] at hi
  have hne : b ≠ p.second.header := by
    rintro rfl
    exact hr (hp.mem_retired.2 (.inr (.inl rfl)))
  rw [op?_fused hw hp hbl hne hi]
  cases hop : f.op? i with
  | none => rfl
  | some op => rw [Option.map_some, Option.map_some, fusedOp_eq hc hi hop]

theorem layout_fused (hbody : p.secondBody = f.layout.filter fun b => p.secondBody.contains b) :
    ∃ pre post, (f.layout.filter fun b => !p.retired.contains b && !p.secondBody.contains b) =
        pre ++ p.first.latch :: post ∧
      (p.fused f).layout =
        pre ++ (f.layout.filter fun b => p.secondBody.contains b) ++ p.first.latch :: post := by
  have hlatch : p.first.latch ∈
      f.layout.filter fun b => !p.retired.contains b && !p.secondBody.contains b := by
    have hretired := hp.not_retired_first hp.first.latch_in
    have hsecond : p.first.latch ∉ p.secondBody := fun h =>
      hp.apart _ hp.first.latch_in ((hp.secondBody _).1 h).1
    rw [List.mem_filter]
    exact ⟨hp.first.latch_edge.1, by simp [hretired, hsecond]⟩
  obtain ⟨pre, post, hsplit, hpre⟩ := List.eq_append_cons_of_mem hlatch
  refine ⟨pre, post, hsplit, ?_⟩
  rw [fused_eq, ← hbody]
  apply Func.layout_moveBlocksBefore _ _ hpre
  rw [layout_retired hw hp, List.filter_filter, ← hsplit]
  exact List.filter_congr fun _ _ => Bool.and_comm _ _

end Fits

theorem Accepted.spares {a b : Loop} (h : p.Accepted f e a b) : p.Spares f (p.fused f) := by
  have hw := h.wellFormed
  have hp := h.fits
  constructor
  · exact size_fused hw hp
  · exact count_fused hw hp
  · exact body_fused hw hp
  · exact owner_fused hw hp
  · exact label_fused hw hp
  · exact fun i => mem_liveInsts_fused hw hp
  · exact (wellFormed_fused hw hp h.clean).nodup_liveInsts
  · exact fun b hb i hi => op?_fused_live hw hp h.clean hb hi
  · intro b hb hfirst hred htail htail' hhead i hi
    rw [op?_fused_live hw hp h.clean hb hi]
    simp [retarget, headLabel, hfirst, hred, htail, htail', hhead]
  · apply layout_fused hw hp
    rw [h.plan.secondBody]
    exact LoopForest.bodyBlocks_eq_filter hw.nodup h.second

/-- What stays when a verified function's loops are fused is what was there, in its place. -/
theorem fuse_spares (f : Func) (a b : Loop) (p : FusionPlan) (keep : Bool) (s : Session)
    (hf : f.verify = .ok ()) (ha : a ∈ f.forest.loops) (hb : b ∈ f.forest.loops)
    (hlegal : (((Checker.builtIn (.ofFunc f) keep).checkCandidate a b).verdict s).1 = .ok ())
    (hplan : ofLoops f a b = .ok p) :
    (∀ s, (p.fuse f s).1 = .ok (p.fused f)) ∧ p.Spares f (p.fused f) := by
  obtain ⟨e, h⟩ := exists_accepted hf ha hb hlegal hplan
  exact ⟨fuse_ensures h.wellFormed h.fits, h.spares⟩

theorem fuse_spares_twoLoops : ∃ p, ofLoops Func.twoLoops .first .second = .ok p ∧
    (∀ s, (p.fuse Func.twoLoops s).1 = .ok (p.fused Func.twoLoops)) ∧
    p.Spares Func.twoLoops (p.fused Func.twoLoops) := by
  obtain ⟨p, hp⟩ := exists_plan_twoLoops
  exact ⟨p, hp, fuse_spares Func.twoLoops .first .second p true .start Func.verify_twoLoops
    Loop.first_mem Loop.second_mem legal_twoLoops hp⟩

end FusionPlan

end LoopFusion
