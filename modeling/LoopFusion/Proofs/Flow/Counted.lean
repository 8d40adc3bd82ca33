import LoopFusion.Proofs.Flow.Built
import LoopFusion.Proofs.Flow.Counter
import LoopFusion.Proofs.Flow.Spans
import LoopFusion.Proofs.Fusion.Checks

/-!
A counted loop that stands in one piece is found with all its parts, and has the shape that loops
need to be fused.
-/

namespace LoopFusion

open Relation LoopFusion.Flow

/-- The loop of the call `c` stands in one piece: it is entered from its preheader and left from its
header to its exit. -/
structure Call.Stands (c : Call) (f : Func) (e : BlockId) (pos : BlockId → Nat) : Prop where
  code : c.In f
  span : f.Span e pos c.made.header c.made.latch
  preheader : pos c.made.preheader < pos c.made.header
  bodyHead : pos c.made.header < pos c.made.body
  bodyHead' : pos c.made.body ≤ pos c.made.latch
  exit : pos c.made.latch < pos c.made.exit
  enter : ∀ q, f.Edge q c.made.header → pos q < pos c.made.header → q = c.made.preheader
  live : c.made.preheader ∈ f.layout
  leave : ∀ x y, f.Edge x y → pos c.made.header ≤ pos x → pos x ≤ pos c.made.latch →
    ¬ (pos c.made.header ≤ pos y ∧ pos y ≤ pos c.made.latch) → x = c.made.header ∧ y = c.made.exit

/-- What is found of the loop of a call: its header, its only latch, its preheader, its only exit
and its induction variable. -/
structure Call.Found (c : Call) (l : Loop) : Prop where
  header : l.header = c.made.header
  latches : l.latches = [c.made.latch]
  preheader : l.preheader? = some c.made.preheader
  exits : l.exits = [c.made.exit]
  iv : ∃ phi next, c.made.iv = .inst phi ∧ c.made.next = .inst next ∧
    l.iv? = some ⟨phi, c.start, c.step.toInt, next⟩

/-- A phi that takes a value from the preheader, and from the latch what adding a constant to itself
gives, is the induction variable. -/
theorem Region.ivOf?_eq {f : Func} {pre latch : BlockId} {phi next : InstId} {start : Value}
    {step : Int64} (hphi : f.op? phi = some (.phi [(pre, start), (latch, .inst next)]))
    (hnext : f.op? next = some (.binary .add (.inst phi) (.const step))) (hstep : step ≠ 0)
    (hne : pre ≠ latch) : ivOf? f pre latch phi = some ⟨phi, start, step.toInt, next⟩ := by
  have hmoves : step.toInt ≠ 0 := fun h => hstep (Int64.toInt_inj.1 h)
  have hlookup : ([(pre, start), (latch, .inst next)] : List (BlockId × Value)).lookup latch =
      some (.inst next) := by
    rw [List.lookup_cons, beq_false_of_ne hne.symm]
    simp
  rw [ivOf?, Func.incoming, hphi]
  simp [hlookup, Value.inst?, hnext, increment?, hmoves, guard]

namespace Call.Stands

variable {f : Func} {e x y : BlockId} {pos : BlockId → Nat} {c : Call} {l : Loop}
  (h : c.Stands f e pos) (hst : f.Staged e pos)

include h

theorem leads : f.Edge c.made.preheader x ↔ x = c.made.header := by
  rw [Func.edge_iff h.live h.code.enter]
  exact List.mem_singleton

theorem preheader_ne_latch : c.made.preheader ≠ c.made.latch := by
  intro he
  have := h.preheader
  rw [he] at this
  exact absurd h.span.le (by omega)

include hst

theorem branch : f.Edge c.made.header y ↔ y = c.made.body ∨ y = c.made.exit := by
  obtain ⟨cond, hop⟩ := h.code.exitOp?_header
  rw [Func.edge_iff (hst.closed _ _ h.span.back) hop]
  simp [Operation.targets]

theorem inLoop_iff : f.InLoop e c.made.header x ↔
    x ∈ f.layout ∧ pos c.made.header ≤ pos x ∧ pos x ≤ pos c.made.latch := h.span.inLoop_iff hst

theorem gated : f.Gated e c.made.header c.made.preheader c.made.body c.made.exit where
  enter q := by
    rw [h.inLoop_iff hst]
    constructor
    · rintro ⟨hq, hout⟩
      refine h.enter q hq ?_
      by_contra hle
      refine hout ⟨hq.1, by omega, ?_⟩
      rw [h.span.only q hq (by omega)]
    · rintro rfl
      refine ⟨h.leads.2 rfl, fun hin => ?_⟩
      have := h.preheader
      omega
  leads x := h.leads
  leave x y hx hxy hy := by
    rw [h.inLoop_iff hst] at hx hy
    exact h.leave x y hxy hx.2.1 hx.2.2 fun hin => hy ⟨hst.closed _ _ hxy, hin⟩
  branch y := h.branch hst
  bodyHead_in := by
    rw [h.inLoop_iff hst]
    exact ⟨hst.closed _ _ ((h.branch hst).2 (.inl rfl)), h.bodyHead.le, h.bodyHead'⟩
  exit_out hin := by
    have := ((h.inLoop_iff hst).1 hin).2.2
    have := h.exit
    omega

theorem found (hl : l ∈ f.forest.loops) (hheader : l.header = c.made.header) : c.Found l := by
  have hf := hst.inArena
  have he := hst.entry
  have hg := h.gated hst
  have his := LoopForest.region_is hf he hl
  have hregion : l.region.header = c.made.header := hheader
  have hlatches : l.latches = [c.made.latch] := by
    refine only?_eq_some.1 ((only?_eq_some_iff_mem his.nodupLatches).2 fun x => ?_)
    rw [his.latches, hregion, h.span.back_iff hst]
  have hpre : l.preheader? = some c.made.preheader := by
    rw [LoopForest.preheader?_eq hl, Region.preheader?_eq_some his hf]
    rw [hregion, Cfg.succs_ofFunc, if_pos h.live, Func.successors, h.code.enter]
    exact ⟨hg.enter, rfl⟩
  have hexits : l.exits = [c.made.exit] := by
    refine only?_eq_some.1 ((only?_eq_some_iff_mem (LoopForest.exits_eq hl ▸
      Region.nodup_exits _ _)).2 fun y => ?_)
    rw [LoopForest.exits_eq hl, Region.mem_exits his, hregion]
    constructor
    · rintro ⟨hout, x, hx, hxy⟩
      exact (hg.leave x y hx hxy hout).2
    · rintro rfl
      exact ⟨hg.exit_out, _, hg.header_in, hg.exit_edge⟩
  obtain ⟨iv, cond, br, hiv, hbody, hphi, hcmp, hbr⟩ := h.code.header
  obtain ⟨next, back, hnext, -, hadd, -⟩ := h.code.latch
  refine ⟨hheader, hlatches, hpre, hexits, iv, next, hiv, hnext, ?_⟩
  have hphis : f.phis l.header = [iv] := by
    have hiv : f.isPhi iv = true := Func.isPhi_of_op? hphi
    have hcond : f.isPhi cond = false := Func.isPhi_of_op? hcmp
    simp [Func.phis, hheader, hbody, hiv, hcond]
  rw [LoopForest.iv?_eq hl hpre (by rw [Loop.latch?, hlatches]; rfl), hphis]
  rw [hiv] at hadd
  rw [hnext] at hphi
  rw [List.findSome?_cons, Region.ivOf?_eq hphi hadd h.code.moves h.preheader_ne_latch]

theorem shaped {k : Checker} (hk : k.func = f) (hl : l ∈ f.forest.loops)
    (hheader : l.header = c.made.header) : k.Shaped l := by
  have hf := hst.inArena
  have he := hst.entry
  have hg := h.gated hst
  have hfound := h.found hst hl hheader
  have hregion : l.region.header = c.made.header := hheader
  obtain ⟨cond, hbranch⟩ := h.code.exitOp?_header
  obtain ⟨iv, next, hiv, hnext, hvar⟩ := hfound.iv
  refine ⟨?_, ⟨c.made.exit, only?_eq_some.2 hfound.exits, _, _, _,
      by rw [hk, hheader, hbranch], ?_⟩, ?_,
    c.made.latch, only?_eq_some.2 hfound.latches, by rw [hk, hheader, h.code.exitOp?_latch], ?_⟩
  · simp [Loop.isSimplified, Loop.latch?, hfound.latches, only?, hfound.preheader, hvar]
  · have hin : l.contains c.made.body := by
      rw [LoopForest.contains_iff hf he hl, hheader]
      exact hg.bodyHead_in
    simp [Checker.splits, hin]
  · rw [LoopForest.exiting_eq hl]
    refine only?_eq_some.1 ((only?_eq_some_iff_mem
      (Region.nodup_exiting (LoopForest.region_is hf he hl) _)).2 fun x => ?_)
    rw [Region.mem_exiting (LoopForest.region_is hf he hl), hregion, hheader]
    constructor
    · rintro ⟨hx, y, hxy, hy⟩
      exact (hg.leave x y hx hxy hy).1
    · rintro rfl
      exact ⟨hg.header_in, _, hg.exit_edge, hg.exit_out⟩
  · obtain ⟨next', back, hnext', hbody, hadd, hback⟩ := h.code.latch
    obtain rfl : next' = next := Value.inst.inj (hnext'.symm.trans hnext)
    have hterm : f.isTerminator back = true := Func.isTerminator_of_op? hback
    simp [Checker.latchOnlySteps, hk, hbody, hvar, hterm]

theorem unguarded (hl : l ∈ f.forest.loops) (hheader : l.header = c.made.header)
    (hno : ∀ g o, f.Edge g c.made.preheader →
      (∀ y, f.Edge g y ↔ y = c.made.preheader ∨ y = o) →
        o ≠ c.made.exit ∧ f.exitOp? c.made.exit ≠ some (.br o)) : l.guard? = none := by
  have hf := hst.inArena
  have hfound := h.found hst hl hheader
  rw [LoopForest.guard?_eq hl, hfound.preheader, Option.bind_some, Option.eq_none_iff_forall_ne_some]
  intro g hg
  have hexit : only? (l.region.exits (Cfg.ofFunc f)) = some c.made.exit := by
    rw [← LoopForest.exits_eq hl]
    exact only?_eq_some.2 hfound.exits
  obtain ⟨hedge, -, o, ho, hor⟩ := Region.guard?_spec hf hexit hg
  obtain ⟨hne, hbr⟩ := hno g o hedge ho
  exact hor.elim hne hbr

end Call.Stands

end LoopFusion
