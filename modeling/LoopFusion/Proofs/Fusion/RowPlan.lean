import LoopFusion.Proofs.Fusion.Look
import LoopFusion.Proofs.Fusion.RowLegal

/-!
A scan of a row of two loops or more finds a plan.
-/

namespace LoopFusion

open Relation LoopFusion.Flow Inquiry

namespace LoopShape

variable {s : LoopShape} {f : Func} {l : Loop}

theorem Of.ofLoop_eq (h : s.Of f l) : ofLoop f l = .ok s := by
  obtain ⟨iv, hiv, hphi, hnext⟩ := h.counter
  obtain ⟨c, t, e, hop, hhead⟩ := h.branch
  simp only [ofLoop, bind_eq_ok, need_eq_ok]
  refine ⟨_, h.latch, _, h.preheader, iv, hiv, _, h.exit, _, hop, ?_⟩
  simp only [bind_eq_ok, need_eq_ok, demand_eq_ok, Bool.and_eq_true, decide_eq_true_eq]
  have hne := h.bodyHead_ne
  have hne' := h.bodyTail_ne
  rw [h.header] at hne hne'
  refine ⟨_, hhead, (), hne, _, h.bodyTail, (), hne', ?_⟩
  rw [← h.header, ← h.guard, ← hphi, ← hnext]
  rfl

end LoopShape

namespace FusionPlan

open LoopShape

variable {p : FusionPlan} {f : Func} {a b : Loop}

theorem Of.ofLoops_eq (h : p.Of f a b) : ofLoops f a b = .ok p := by
  simp only [ofLoops, bind_eq_ok, demand_eq_ok]
  refine ⟨_, h.first.ofLoop_eq, _, h.second.ofLoop_eq, (), decide_eq_true h.meets, (), ?_, (),
    decide_eq_true h.phis, (), List.isEmpty_iff.2 h.exitPhis, (), ?_, ?_⟩
  · exact List.all_eq_true.2 fun i hi => by simpa using h.counts i hi
  · refine (forM_eq_ok _ _).2 fun r hr => (forM_eq_ok _ _).2 fun i hi => checkRetired_eq_ok.2 ?_
    rw [← h.retired] at hr ⊢
    exact h.unneeded r hr i hi
  · rw [← h.retired, ← h.secondBody, ← h.redirected, ← h.bypassTargets]
    rfl

end FusionPlan

theorem Cell.exit_cases {b : BlockId} {cells : List Cell} {c : Cell} (h : Cell.Linked b cells)
    (hc : c ∈ cells) :
    c.made.exit = Cell.last b cells ∨ ∃ a ∈ cells, a.made.preheader = c.made.exit := by
  induction cells generalizing b with
  | nil => cases hc
  | cons a cells ih =>
    obtain ⟨-, h⟩ := h
    rcases List.mem_cons.1 hc with rfl | hc
    · cases cells with
      | nil => exact .inl rfl
      | cons a cells => exact .inr ⟨a, by simp, h.1⟩
    · refine (ih h hc).imp_right ?_
      rintro ⟨a, ha, he⟩
      exact ⟨a, List.mem_cons_of_mem _ ha, he⟩

namespace Draft.Row

variable {d : Draft} {f : Func} {e x y : BlockId} {cells : List Cell} {a c : Cell} {l : Loop}
  {i j iv next : InstId} (h : d.Row f e cells)

/-- The blocks and values of the loop of a cell. -/
def shape (c : Cell) (iv next : InstId) : LoopShape :=
  ⟨c.made.header, c.made.latch, c.made.preheader, none, c.made.body, c.made.tail, c.made.exit, iv,
    next⟩

include h

theorem edge_latch (hc : c ∈ cells) : f.Edge x c.made.latch ↔ x = c.made.tail := by
  have ht := h.threaded c hc
  constructor
  · intro hx
    have hedge : f.Edge c.made.tail c.made.latch := h.edge_iff.2 ⟨c, hc, .made .latch⟩
    refine h.staged.inj x hx.1 _ hedge.1 ?_
    obtain ⟨hheader, hbodies, hlatch, hexit⟩ := h.placed hc
    have htail := hbodies _ _ ht.tail
    have hlen := ht.nonempty
    rcases h.arc_or hc hx with harc | hlt | hlt
    · have := harc.placed (h.placed hc) ht
      omega
    · omega
    · omega
  · rintro rfl
    exact h.edge_iff.2 ⟨c, hc, .made .latch⟩

theorem shape_of (hc : c ∈ cells) (hl : l ∈ f.forest.loops) (hlc : l.header = c.made.header)
    (hiv : c.made.iv = .inst iv) (hnext : c.made.next = .inst next) : (shape c iv next).Of f l := by
  have hf := h.staged.inArena
  have he := h.staged.entry
  have ht := h.threaded c hc
  have hg := (h.stands hc).gated h.staged
  have hfound := (h.stands hc).found h.staged hl hlc
  obtain ⟨cond, hop⟩ := (h.code c hc).exitOp?_header
  obtain ⟨phi, next', hphi, hnext', hvar⟩ := hfound.iv
  obtain rfl : phi = iv := Value.inst.inj (hphi.symm.trans hiv)
  obtain rfl : next' = next := Value.inst.inj (hnext'.symm.trans hnext)
  have hin : l.contains c.made.body = true := by
    rw [LoopForest.contains_iff hf he hl, hlc]
    exact hg.bodyHead_in
  have hout : l.contains c.made.exit = false := by
    rw [← Bool.not_eq_true, LoopForest.contains_iff hf he hl, hlc]
    exact hg.exit_out
  obtain ⟨hheader, hbodies, hlatch, -⟩ := h.placed hc
  have hbody := hbodies _ _ ht.head
  have htail := hbodies _ _ ht.tail
  have hlen := ht.nonempty
  refine ⟨hlc.symm, only?_eq_some.2 hfound.latches, hfound.preheader, (h.unguarded hc hl hlc).symm,
    ⟨_, hvar, rfl, rfl⟩, only?_eq_some.2 hfound.exits, ⟨_, _, _, hlc ▸ hop, ?_⟩, ⟨?_, ?_⟩, ?_, ?_⟩
  · change LoopShape.bodyHead? l c.made.exit c.made.body c.made.exit = some c.made.body
    simp [LoopShape.bodyHead?, hin, hout]
  · change c.made.body ≠ c.made.latch
    intro heq
    rw [heq] at hbody
    omega
  · change c.made.body ≠ c.made.header
    intro heq
    rw [heq] at hbody
    omega
  · refine (only?_eq_some_iff_mem (h.wellFormed.nodup.filter _)).2 fun x => ?_
    exact LoopShape.mem_predecessors.trans (h.edge_latch hc)
  · change c.made.tail ≠ c.made.header
    intro heq
    rw [heq] at htail
    omega

theorem phis_header (hc : c ∈ cells) (hiv : c.made.iv = .inst iv) :
    f.phis c.made.header = [iv] := by
  obtain ⟨iv', cond, br, hiv', hhead, hphi, hcmp, -⟩ := h.header hc
  obtain rfl : iv' = iv := Value.inst.inj (hiv'.symm.trans hiv)
  have hfirst : f.isPhi iv' = true := Func.isPhi_of_op? hphi
  have hsecond : f.isPhi cond = false := Func.isPhi_of_op? hcmp
  simp [Func.phis, hhead, hfirst, hsecond]

theorem phis_exit (hc : c ∈ cells) : f.phis c.made.exit = [] := by
  rcases Cell.exit_cases h.linked hc with hlast | ⟨a, ha, hpre⟩
  · obtain ⟨i, v, hbody, hop, -⟩ := h.returns
    have hphi : f.isPhi i = false := Func.isPhi_of_op? hop
    simp [Func.phis, hlast, hbody, hphi]
  · obtain ⟨i, hbody, hop⟩ := h.preheader ha
    have hphi : f.isPhi i = false := Func.isPhi_of_op? hop
    simp [Func.phis, ← hpre, hbody, hphi]

variable (hd : d.Independent)

include hd

/-- What a loop computes in its preheader, its header and its latch is not needed outside. -/
theorem unneeded (hc : c ∈ cells) (hiv : c.made.iv = .inst iv)
    (hx : x ∈ [c.made.preheader, c.made.header, c.made.latch]) (hi : i ∈ f.body x) :
    ¬ f.writesMemory i ∧ (f.hasResult i → i ≠ iv → ¬ FusionPlan.isUsedOutside f
      [c.made.preheader, c.made.header, c.made.latch] i) := by
  have hused : ∀ x, x = c.made.header ∨ x = c.made.latch → i ∈ f.body x → i ≠ iv →
      ¬ FusionPlan.isUsedOutside f [c.made.preheader, c.made.header, c.made.latch] i := by
    intro x hx hi hne hused
    obtain ⟨user, huser, hout⟩ := List.any_eq_true.1 hused
    obtain ⟨hlive, hop⟩ := List.mem_filter.1 huser
    obtain ⟨y, hy, huy⟩ := List.mem_flatMap.1 hlive
    have hne' : .inst i ≠ c.made.iv := fun he => hne (Value.inst.inj (he.trans hiv))
    have hends := h.used_at_ends hd hc hx hi hne' hy huy (List.contains_iff_mem.1 hop)
    rw [h.wellFormed.owner y hy user huy] at hout
    rcases hends with rfl | rfl <;> simp at hout
  simp only [List.mem_cons, List.not_mem_nil, or_false] at hx
  rcases hx with rfl | rfl | rfl
  · obtain ⟨j, hbody, hop⟩ := h.preheader hc
    rw [hbody, List.mem_singleton] at hi
    subst hi
    simp [Func.writesMemory, Func.hasResult, hop, Operation.writesMemory, Operation.hasResult,
      Operation.isTerminator]
  · refine ⟨?_, fun _ hne => hused _ (.inl rfl) hi hne⟩
    obtain ⟨iv', cond, br, -, hhead, hphi, hcmp, hbr⟩ := h.header hc
    rw [hhead] at hi
    simp only [List.mem_cons, List.not_mem_nil, or_false] at hi
    rcases hi with rfl | rfl | rfl <;>
      simp [Func.writesMemory, hphi, hcmp, hbr, Operation.writesMemory]
  · refine ⟨?_, fun _ hne => hused _ (.inr rfl) hi hne⟩
    obtain ⟨next, back, -, hbody, hadd, hback⟩ := h.latch hc
    rw [hbody] at hi
    simp only [List.mem_cons, List.not_mem_nil, or_false] at hi
    rcases hi with rfl | rfl <;>
      simp [Func.writesMemory, hadd, hback, Operation.writesMemory]

theorem exists_plan {b : Cell} {l' : Loop} (ha : a ∈ cells) (hb : b ∈ cells)
    (hab : a.made.exit = b.made.preheader) (hl : l ∈ f.forest.loops)
    (hla : l.header = a.made.header) (hl' : l' ∈ f.forest.loops)
    (hlb : l'.header = b.made.header) : ∃ p, FusionPlan.ofLoops f l l' = .ok p := by
  obtain ⟨iva, -, -, hiva, -⟩ := h.header ha
  obtain ⟨nexta, back, hnexta, hlatch, hadd, hback⟩ := h.latch ha
  obtain ⟨ivb, -, -, hivb, -⟩ := h.header hb
  obtain ⟨nextb, -, hnextb, -⟩ := h.latch hb
  refine ⟨⟨shape a iva nexta, shape b ivb nextb, l'.bodyBlocks,
    FusionPlan.retiredOf (shape b ivb nextb), (f.predecessors b.made.preheader).filter fun q =>
      q ≠ a.made.header && !(FusionPlan.retiredOf (shape b ivb nextb)).contains q, []⟩,
    FusionPlan.Of.ofLoops_eq ⟨h.shape_of ha hl hla hiva hnexta,
    h.shape_of hb hl' hlb hivb hnextb, hab, fun i hi => ?_, h.phis_header hb hivb, h.phis_exit hb,
    fun x hx i hi => h.unneeded hd hb hivb hx hi, rfl, rfl, rfl, rfl⟩⟩
  change i ∈ f.body a.made.latch at hi
  rw [hlatch] at hi
  simp only [List.mem_cons, List.not_mem_nil, or_false] at hi
  exact hi.imp_right fun hi => by rw [hi]; exact Func.isTerminator_of_op? hback

/-- A scan of at least two loops finds a plan. -/
theorem exists_look (hcount : ∀ t, (d.count t).1.isSome) {b : Cell} {rest : List Cell}
    (hcells : cells = a :: b :: rest) (t : SymbolTable) :
    ∃ p, (Pass.look .standard f t).1 = some p := by
  have hf := h.staged.inArena
  have he := h.staged.entry
  have ha : a ∈ cells := by simp [hcells]
  have hb : b ∈ cells := by simp [hcells]
  have hab : a.made.exit = b.made.preheader := by
    have hlinked := h.linked
    rw [hcells] at hlinked
    exact hlinked.2.1.symm
  obtain ⟨l, hl, hla⟩ := h.exists_loop ha
  obtain ⟨l', hl', hlb⟩ := h.exists_loop hb
  have hlegal : ∀ s, ∃ s', (Checker.builtIn (.ofFunc f) true).Legal l l' s s' := fun s =>
    h.legal hd ha hb hab hl hla hl' hlb hcount s
  obtain ⟨p, hp⟩ := h.exists_plan hd ha hb hab hl hla hl' hlb
  have hacc : (Pass.checker .standard f).Accepts f e l l' :=
    ⟨h.wellFormed, rfl, hl, hl', .start, hlegal .start⟩
  obtain ⟨before, after, -, hscan⟩ := hacc.nextSibling.scan_eq hf he hl hl'
  have hverdict : ((Pass.checker .standard f).checkCandidate l l').verdict.Ensures
      fun r => r = .ok () := fun s => by
    obtain ⟨s', hs'⟩ := hlegal s
    exact congrArg Prod.fst (Checker.verdict_eq_ok.2 hs')
  have hjudge : (Pass.judge (Pass.checker .standard f) l l').Ensures fun r => r = .ok p :=
    hverdict.bind fun r hr => by
      subst hr
      have hp' : FusionPlan.ofLoops (Pass.checker .standard f).func l l' = .ok p := hp
      rw [hp']
      exact ensures_pure rfl
  have hplan : (Pass.scan .standard f).Ensures fun found => ∃ p, found.plan? = some p := by
    rw [hscan]
    refine ensures_bind fun _ => ensures_bind fun found => ?_
    split
    case isTrue hsome => exact ensures_pure (Option.isSome_iff_exists.1 hsome)
    case isFalse =>
      refine ensures_bind fun _ => hjudge.bind fun r hr => ?_
      subst hr
      exact ensures_bind fun _ => ensures_pure ⟨p, rfl⟩
  exact hplan _

end Draft.Row

end LoopFusion
