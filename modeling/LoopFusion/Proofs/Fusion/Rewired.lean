import LoopFusion.Fusion.Rewiring
import LoopFusion.Proofs.Fusion.Pair
import Mathlib.Data.List.TakeWhile

/-!
The fused function, block by block: which operations its blocks hold, where control goes from them,
and which blocks are left.
-/

namespace LoopFusion

open Relation LoopFusion.Flow

namespace Func.WellFormed

variable {f : Func} {e b c : BlockId} {i : InstId} (hw : f.WellFormed e)

include hw

theorem terminator?_eq_some_iff (hb : b ∈ f.layout) (hc : c ∈ f.layout) (hi : i ∈ f.body b) :
    f.terminator? c = some i ↔ c = b ∧ f.isTerminator i := by
  constructor
  · intro h
    obtain ⟨hlast, ht⟩ := Option.filter_eq_some_iff.1 h
    exact ⟨hw.block_unique hb hc hi (List.mem_of_getLast? hlast), ht⟩
  · rintro ⟨rfl, ht⟩
    obtain ⟨inner, t, hbody, -, hin, -⟩ := hw.shape c hb
    rw [hbody, List.mem_append, List.mem_singleton] at hi
    rcases hi with hi | rfl
    · exact absurd ht (hin i hi)
    · rw [Func.terminator?, hbody, List.getLast?_concat, Option.filter_some, if_pos ht]

theorem mem_phis_iff (hb : b ∈ f.layout) (hc : c ∈ f.layout) (hi : i ∈ f.body b) :
    i ∈ f.phis c ↔ c = b ∧ f.isPhi i := by
  constructor
  · intro h
    have hp := List.mem_takeWhile_imp h
    exact ⟨hw.block_unique hb hc hi ((List.takeWhile_sublist _).mem h), hp⟩
  · rintro ⟨rfl, hp⟩
    obtain ⟨inner, t, hbody, ht, -, hrest⟩ := hw.shape c hb
    rw [← List.takeWhile_append_dropWhile (p := f.isPhi) (l := f.body c), List.mem_append] at hi
    refine hi.resolve_right fun hd => ?_
    have hit : i ≠ t := by
      rintro rfl
      exact Func.not_isPhi_of_isTerminator ht hp
    rw [hbody, List.dropWhile_append] at hd
    split at hd
    · have := (List.dropWhile_sublist _).mem hd
      exact hit (List.mem_singleton.1 this)
    · rcases List.mem_append.1 hd with hd | hd
      · exact hrest i hd hp
      · exact hit (List.mem_singleton.1 hd)

theorem nodup_phis (hb : b ∈ f.layout) : (f.phis b).Nodup :=
  (List.takeWhile_sublist _).nodup (hw.nodupBody b hb)

omit hw in
theorem mem_liveInsts (hb : b ∈ f.layout) (hi : i ∈ f.body b) : i ∈ f.liveInsts :=
  List.mem_flatMap.2 ⟨b, hb, hi⟩

end Func.WellFormed

namespace FusionPlan

open Func.WellFormed

variable {p : FusionPlan} {f : Func} {e b : BlockId} {i : InstId}

/-- Where a branch of `b` goes instead. -/
def retarget (p : FusionPlan) (b : BlockId) : BlockId → BlockId :=
  if b = p.first.header ∨ b ∈ p.redirected then replace p.second.preheader p.second.exit
  else if b = p.first.bodyTail then replace p.first.latch p.second.bodyHead
  else if b = p.second.bodyTail then replace p.second.latch p.first.latch
  else id

/-- The predecessor that a phi of `b` names instead. -/
def relabel (p : FusionPlan) (b : BlockId) : BlockId → BlockId :=
  if b = p.second.bodyHead then replace p.second.header p.first.bodyTail
  else if b = p.first.latch then replace p.first.bodyTail p.second.bodyTail
  else id

/-- The value used instead. -/
def renamed (p : FusionPlan) : Value → Value := replace (.inst p.second.iv) (.inst p.first.iv)

/-- The operation in `b` instead of `op`. -/
def fusedOp (p : FusionPlan) (b : BlockId) (op : Operation) : Operation :=
  ((op.mapOperands p.renamed).mapTargets (p.retarget b)).mapIncoming
    (List.map fun (q, v) => (p.relabel b q, v))

theorem operands_fusedOp (p : FusionPlan) (b : BlockId) (op : Operation) :
    (p.fusedOp b op).operands = op.operands.map p.renamed := by
  rw [← Operation.operands_mapOperands, fusedOp]
  cases op <;> simp [Operation.mapOperands, Operation.mapTargets, Operation.mapIncoming,
    Operation.operands, Function.comp_def]

theorem isPhi_fusedOp (p : FusionPlan) (b : BlockId) (op : Operation) :
    (p.fusedOp b op).isPhi = op.isPhi := by simp [fusedOp]

theorem fusedOp_of_terminator {op : Operation} (h : op.isTerminator) :
    p.fusedOp b op = (op.mapOperands p.renamed).mapTargets (p.retarget b) :=
  Operation.mapIncoming_of_not_phi _ (by simpa using Operation.not_isPhi_of_isTerminator h)

theorem fusedOp_of_not_terminator {op : Operation} (h : ¬ op.isTerminator) :
    p.fusedOp b op = (op.mapOperands p.renamed).mapIncoming
      (List.map fun (q, v) => (p.relabel b q, v)) := by
  rw [fusedOp, Operation.mapTargets_of_not_terminator _ (by simpa using h)]

/-- The function with its operations rewritten, before blocks are dropped and moved. -/
def rewrittenOps (p : FusionPlan) (f : Func) : Func :=
  p.redirect (p.chainBodies (f.replaceAllUses (.inst p.second.iv) (.inst p.first.iv)).2)

section Ops

/-- Each branch is rewritten by one of the edits. -/
theorem retarget_eq (hp : p.Fits f e) (b : BlockId) :
    (if b ∈ p.redirected then replace p.second.preheader p.second.exit else id) ∘
      (if p.second.bodyTail = b then replace p.second.latch p.first.latch else id) ∘
      (if p.first.bodyTail = b then replace p.first.latch p.second.bodyHead else id) ∘
      (if p.first.header = b then replace p.second.preheader p.second.exit else id) =
    p.retarget b := by
  by_cases hba : b = p.first.header
  · subst b
    simp [retarget, hp.not_redirected_first hp.first.header_in, hp.first.bodyTail_ne,
      hp.second_tail_ne]
  by_cases hta : b = p.first.bodyTail
  · subst b
    simp [retarget, hp.not_redirected_first hp.first.tail_in, hba, Ne.symm hba,
      hp.bodyTails_ne.symm]
  by_cases htb : b = p.second.bodyTail
  · subst b
    simp [retarget, hp.not_redirected_second hp.second.tail_in, hta, Ne.symm hta, hba,
      Ne.symm hba]
  · by_cases hr : b ∈ p.redirected <;>
      simp [retarget, hr, hba, hta, htb, Ne.symm hba, Ne.symm hta, Ne.symm htb]

/-- Each phi is rewritten by one of the edits. -/
theorem relabel_eq (hp : p.Fits f e) (b : BlockId) :
    (if p.first.latch = b then
        List.map fun x => (replace p.first.bodyTail p.second.bodyTail x.1, x.2) else id) ∘
      (if p.second.bodyHead = b then
        List.map fun x => (replace p.second.header p.first.bodyTail x.1, x.2) else id) =
    List.map fun x : BlockId × Value => (p.relabel b x.1, x.2) := by
  by_cases hmb : b = p.second.bodyHead
  · subst b
    simp [relabel, hp.bodyHead_ne_latch.symm]
  by_cases hla : b = p.first.latch
  · subst b
    simp [relabel, hmb, Ne.symm hmb]
  · simp [relabel, hmb, hla, Ne.symm hmb, Ne.symm hla]

variable (hw : f.WellFormed e) (hp : p.Fits f e)

include hw hp

theorem rewrites_rewrittenOps : ∃ g, Func.Rewrites f (p.rewrittenOps f) g ∧
    ∀ b ∈ f.layout, b ≠ p.second.header → ∀ i ∈ f.body b, ∀ op, f.op? i = some op →
      g i op = p.fusedOp b op := by
  rw [rewrittenOps, redirect, hp.unguarded, chainBodies]
  have hma := hp.second.bodyHead_in.exists_edge.choose_spec.1
  refine ⟨_, ((((((((Func.Rewrites.refl f).replaceAllUses _ _).replaceSuccessor _ _ _).setTerminator
    _ rfl).replaceSuccessor _ _ _).modifyPhis _ _ ?_).replaceSuccessor _ _ _).modifyPhis _ _
    ?_).replaceSuccessors _ _ _, ?_⟩
  · exact hw.nodup_phis hma
  · exact hw.nodup_phis hp.first.latch_edge.1
  · intro b hb hne i hi op hop
    have hterm : ∀ c ∈ f.layout, f.terminator? c = some i ↔ c = b ∧ op.isTerminator := by
      intro c hc
      rw [hw.terminator?_eq_some_iff hb hc hi, Func.isTerminator, hop, Option.any_some]
    have hphi : ∀ c ∈ f.layout, i ∈ f.phis c ↔ c = b ∧ op.isPhi := by
      intro c hc
      rw [hw.mem_phis_iff hb hc hi, Func.isPhi, hop, Option.any_some]
    have hred : (∃ c ∈ p.redirected, f.terminator? c = some i) ↔
        b ∈ p.redirected ∧ op.isTerminator := by
      constructor
      · rintro ⟨c, hc, ht⟩
        obtain ⟨rfl, ht⟩ := (hterm c ((hp.redirected c).1 hc).1.1).1 ht
        exact ⟨hc, ht⟩
      · rintro ⟨hc, ht⟩
        exact ⟨b, hc, (hterm b hb).2 ⟨rfl, ht⟩⟩
    have hentry : p.second.entry = p.second.preheader := by
      rw [LoopShape.entry, hp.unguarded, Option.getD_none]
    simp only [hred, hterm _ hp.first.tail_edge.1, hterm _ hp.second.tail_edge.1,
      hterm _ hp.first.exit_edge.1, hterm _ hp.second.exit_edge.1, hphi _ hma,
      hphi _ hp.first.latch_edge.1, mem_liveInsts hb hi, if_true, hentry, hne.symm, false_and,
      if_false]
    simp only [Operation.ite_mapTargets, Operation.ite_mapIncoming,
      Operation.isTerminator_mapOperands, Operation.isTerminator_mapTargets,
      Operation.isTerminator_mapIncoming, Operation.isPhi_mapOperands,
      Operation.isPhi_mapTargets, Operation.isPhi_mapIncoming]
    simp only [Operation.mapTargets_mapIncoming, Operation.mapTargets_mapTargets,
      Operation.mapIncoming_mapIncoming]
    rw [retarget_eq hp, relabel_eq hp]
    rfl

end Ops

/-- The function that a plan makes of another one. -/
def fused (p : FusionPlan) (f : Func) : Func := (p.rewired f).2

theorem fused_eq (p : FusionPlan) (f : Func) : p.fused f =
    (p.retired.foldl Func.removeBlock (p.rewrittenOps f)).moveBlocksBefore p.secondBody
      p.first.latch := rfl

section Fused

variable (hw : f.WellFormed e) (hp : p.Fits f e)

include hw hp

omit hw hp in
theorem inst?_fused (i : InstId) : (p.fused f).inst? i = (p.rewrittenOps f).inst? i := by
  rw [Func.inst?, Func.inst?, ← (Func.retired_removeBlocks (p.rewrittenOps f) p.retired).insts]
  rfl

omit hw hp in
theorem op?_fused_eq (i : InstId) : (p.fused f).op? i = (p.rewrittenOps f).op? i := by
  rw [Func.op?, Func.op?, inst?_fused]

theorem alike_rewrittenOps : Func.Alike f (p.rewrittenOps f) := by
  obtain ⟨g, hg, -⟩ := rewrites_rewrittenOps hw hp
  exact hg.alike

theorem op?_fused (hb : b ∈ f.layout) (hne : b ≠ p.second.header) (hi : i ∈ f.body b) :
    (p.fused f).op? i = (f.op? i).map (p.fusedOp b) := by
  obtain ⟨g, hg, hop⟩ := rewrites_rewrittenOps hw hp
  rw [op?_fused_eq, hg.op?]
  cases h : f.op? i with
  | none => rfl
  | some op => rw [Option.map_some, Option.map_some, hop b hb hne i hi op h]

theorem body_fused (b : BlockId) : (p.fused f).body b = f.body b :=
  ((Func.retired_removeBlocks (p.rewrittenOps f) p.retired).body b).trans
    ((alike_rewrittenOps hw hp).body b)

theorem contains_fused (b : BlockId) :
    (p.fused f).contains b ↔ f.contains b ∧ b ∉ p.retired := by
  have := (Func.retired_removeBlocks (p.rewrittenOps f) p.retired).contains b
  rw [(alike_rewrittenOps hw hp).contains] at this
  have hmove : (p.fused f).contains b =
      (p.retired.foldl Func.removeBlock (p.rewrittenOps f)).contains b := rfl
  rw [hmove, this]
  simp

theorem params_fused : (p.fused f).params = f.params :=
  (Func.retired_removeBlocks (p.rewrittenOps f) p.retired).params.trans
    (alike_rewrittenOps hw hp).params

theorem size_fused : (p.fused f).blocks.size = f.blocks.size :=
  (Func.retired_removeBlocks (p.rewrittenOps f) p.retired).size.trans
    (congrArg Array.size (alike_rewrittenOps hw hp).blocks)

theorem count_fused : (p.fused f).insts.size = f.insts.size :=
  (congrArg Array.size (Func.retired_removeBlocks (p.rewrittenOps f) p.retired).insts).trans
    (alike_rewrittenOps hw hp).size

theorem owner_fused (i : InstId) : (p.fused f).owner? i = f.owner? i := by
  rw [← (alike_rewrittenOps hw hp).owner, Func.owner?, Func.owner?, inst?_fused]

theorem label_fused (i : InstId) :
    ((p.fused f).inst? i).map (·.name) = (f.inst? i).map (·.name) := by
  rw [← (alike_rewrittenOps hw hp).label, inst?_fused]

theorem isTerminator_fused (i : InstId) : (p.fused f).isTerminator i = f.isTerminator i := by
  rw [← (alike_rewrittenOps hw hp).isTerminator, Func.isTerminator, Func.isTerminator,
    op?_fused_eq]

theorem isPhi_fused (i : InstId) : (p.fused f).isPhi i = f.isPhi i := by
  rw [← (alike_rewrittenOps hw hp).isPhi, Func.isPhi, Func.isPhi, op?_fused_eq]

theorem hasResult_fused (i : InstId) : (p.fused f).hasResult i = f.hasResult i := by
  have hop : ∀ g : Func, g.hasResult i = ((g.op? i).isSome && !g.writesMemory i &&
      !g.isTerminator i) := by
    intro g
    rw [Func.hasResult, Func.writesMemory, Func.isTerminator]
    cases g.op? i <;> simp [Operation.hasResult]
  have hsome : ((p.fused f).op? i).isSome = (f.op? i).isSome := by
    obtain ⟨g, hg, -⟩ := rewrites_rewrittenOps hw hp
    rw [op?_fused_eq, hg.op?, Option.isSome_map]
  have hwrites : (p.fused f).writesMemory i = f.writesMemory i := by
    rw [← (alike_rewrittenOps hw hp).writesMemory, Func.writesMemory, Func.writesMemory,
      op?_fused_eq]
  rw [hop, hop, hsome, hwrites, isTerminator_fused hw hp]

theorem terminator?_fused (b : BlockId) : (p.fused f).terminator? b = f.terminator? b := by
  rw [Func.terminator?, Func.terminator?, body_fused hw hp, funext (isTerminator_fused hw hp)]

theorem exitOp?_fused (hb : b ∈ f.layout) (hne : b ≠ p.second.header) :
    (p.fused f).exitOp? b = (f.exitOp? b).map (p.fusedOp b) := by
  rw [Func.exitOp?, Func.exitOp?, terminator?_fused hw hp]
  cases ht : f.terminator? b with
  | none => rfl
  | some t =>
    have hi := List.mem_of_getLast? (Option.filter_eq_some_iff.1 ht).1
    exact op?_fused hw hp hb hne hi

theorem successors_fused (hb : b ∈ f.layout) (hne : b ≠ p.second.header) :
    (p.fused f).successors b = (f.successors b).map (p.retarget b) := by
  rw [Func.successors, Func.successors, exitOp?_fused hw hp hb hne]
  cases hop : f.exitOp? b with
  | none => rfl
  | some op =>
    obtain ⟨t, -, -, hterm⟩ := Func.exitOp?_eq_some hop
    have htar : (op.mapOperands p.renamed).targets = op.targets := by cases op <;> rfl
    rw [Option.map_some, Option.elim_some, Option.elim_some, fusedOp_of_terminator hterm,
      Operation.targets_mapTargets, htar]

theorem layout_retired : (p.retired.foldl Func.removeBlock (p.rewrittenOps f)).layout =
    f.layout.filter fun b => !p.retired.contains b := by
  rw [(Func.retired_removeBlocks _ _).layout, (alike_rewrittenOps hw hp).layout]

theorem mem_layout_fused : b ∈ (p.fused f).layout ↔ b ∈ f.layout ∧ b ∉ p.retired := by
  rw [fused_eq, Func.mem_moveBlocksBefore, layout_retired hw hp, List.mem_filter]
  · simp
  · intro c hc
    rw [layout_retired hw hp, List.mem_filter]
    have hin := ((hp.secondBody c).1 hc).1.exists_edge.choose_spec.1
    exact ⟨hin, by simpa using hp.not_retired_body hc⟩

theorem nodup_layout_fused : (p.fused f).layout.Nodup := by
  rw [fused_eq]
  refine Func.nodup_moveBlocksBefore _ ?_ hp.nodupBody
  rw [layout_retired hw hp]
  exact hw.nodup.filter _

theorem entry_not_retired : e ∉ p.retired := by
  rw [hp.retired]
  simp only [List.mem_cons, List.not_mem_nil, or_false, not_or]
  refine ⟨?_, ?_, ?_⟩ <;> rintro rfl
  · exact hw.unentered _ hp.exit_edge
  · exact hw.unentered _ hp.second.preheader_edge
  · exact hw.unentered _ hp.second.tail_edge

omit hw in
/-- A block of the second loop has a predecessor. -/
theorem entry_not_mem_body : e ∉ p.secondBody := by
  intro hm
  obtain ⟨hin, hne, -⟩ := (hp.secondBody e).1 hm
  exact hin.dom.2 (.refl hne)

theorem entry_fused : Func.entry? (p.fused f) = some e := by
  rw [fused_eq]
  refine Func.head?_moveBlocksBefore _ ?_ (entry_not_mem_body hp) ?_
  · obtain ⟨l, hl⟩ := List.head?_eq_some_iff.1 hw.entry
    rw [layout_retired hw hp, hl, List.filter_cons_of_pos (by simpa using entry_not_retired hw hp)]
    rfl
  · rintro rfl
    exact hw.unentered _ hp.first.tail_edge

end Fused

end FusionPlan

end LoopFusion
