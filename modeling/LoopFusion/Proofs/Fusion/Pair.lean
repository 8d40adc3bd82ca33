import LoopFusion.Proofs.Flow.Counter
import LoopFusion.Proofs.Fusion.Abutting
import LoopFusion.Proofs.Ir.Edit

/-!
Where a legal pair of loops lies in the graph: each is entered and left in one place, they share no
block, and control comes to the preheader of the second from the header of the first only.
-/

namespace LoopFusion

open Relation LoopFusion.Flow

theorem Func.not_isPhi_of_isTerminator {f : Func} {i : InstId} (ht : f.isTerminator i) :
    ¬ f.isPhi i := by
  rw [Func.isTerminator, Option.any_eq_true] at ht
  obtain ⟨op, hop, ht⟩ := ht
  simpa [Func.isPhi, hop] using Operation.not_isPhi_of_isTerminator ht

namespace LoopShape

/-- A loop with one way in, one way out of its header, and one way round. -/
structure Simple (s : LoopShape) (f : Func) (e : BlockId) : Prop
    extends f.Gated e s.header s.preheader s.bodyHead s.exit where
  back : ∀ l, f.Back e l s.header ↔ l = s.latch
  bodyHead_ne : s.bodyHead ≠ s.latch ∧ s.bodyHead ≠ s.header
  tail : ∀ q, f.Edge q s.latch ↔ q = s.bodyTail
  bodyTail_ne : s.bodyTail ≠ s.header
  round : ∀ y, f.Edge s.latch y ↔ y = s.header

variable {f : Func} {e x y : BlockId} {s : LoopShape} {l : Loop} {c : Checker}

theorem mem_predecessors {p b : BlockId} : p ∈ f.predecessors b ↔ f.Edge p b := by
  rw [Func.predecessors, List.mem_filter, List.contains_iff_mem, Func.Edge]

theorem bodyHead?_eq_some {exit t e' m : BlockId} (h : bodyHead? l exit t e' = some m) :
    l.contains m ∧ ¬ l.contains exit ∧ (m = t ∧ exit = e' ∨ m = e' ∧ exit = t) := by
  rw [bodyHead?] at h
  split at h
  case h_1 ht he =>
    split at h <;> cases h
    subst exit
    exact ⟨ht, by simp [he], .inl ⟨rfl, rfl⟩⟩
  case h_2 ht he =>
    split at h <;> cases h
    subst exit
    exact ⟨he, by simp [ht], .inr ⟨rfl, rfl⟩⟩
  case h_3 => cases h

theorem simple_of_shaped (hw : f.WellFormed e) (hc : c.func = f) (hl : l ∈ f.forest.loops)
    (hs : c.Shaped l) (ho : s.Of f l) : s.Simple f e := by
  have hf := hw.inArena
  have he := hw.entry
  have hr := LoopForest.region_is hf he hl
  have hgated : f.Gated e s.header s.preheader s.bodyHead s.exit := by
    obtain ⟨cond, t, e', hop, hhead⟩ := ho.branch
    obtain ⟨hm, -, hte⟩ := bodyHead?_eq_some hhead
    obtain ⟨y, hy⟩ := (LoopForest.headed hf he hl).exists_edge
    rw [ho.header]
    refine LoopForest.gated hf he hl ho.preheader ho.exit hs.exiting (fun y => ?_) hm
    rw [Func.edge_iff hy.1 hop]
    rcases hte with ⟨h₁, h₂⟩ | ⟨h₁, h₂⟩ <;> simp [Operation.targets, h₁, h₂, or_comm]
  obtain ⟨latch, hlatch, hbr, -⟩ := hs.latch
  obtain rfl := Option.some.inj (hlatch.symm.trans ho.latch)
  have hlatch : only? l.region.latches = some s.latch := hlatch
  rw [only?_eq_some_iff_mem hr.nodupLatches] at hlatch
  have hback : ∀ b, f.Back e b s.header ↔ b = s.latch := by
    intro b
    rw [ho.header, ← hlatch]
    exact (hr.latches b).symm
  have hlat : f.Edge s.latch s.header := ((hback _).2 rfl).edge
  refine ⟨hgated, hback, ho.bodyHead_ne, fun q => ?_, ho.bodyTail_ne, fun y => ?_⟩
  · have htail := ho.bodyTail
    have hn : (f.predecessors s.latch).Nodup := hw.nodup.filter _
    rw [only?_eq_some_iff_mem hn] at htail
    rw [← htail, mem_predecessors]
  · rw [Func.edge_iff hlat.1 (hc ▸ hbr), ho.header]
    exact List.mem_singleton

namespace Simple

variable (h : s.Simple f e)

include h

theorem latch_edge : f.Edge s.latch s.header := (h.round _).2 rfl

theorem latch_in : f.InLoop e s.header s.latch := ((h.back _).2 rfl).inLoop

theorem tail_edge : f.Edge s.bodyTail s.latch := (h.tail _).2 rfl

theorem latch_ne : s.latch ≠ s.header := by
  intro he
  -- the header has its preheader and itself as predecessors, the latch only one
  have h₁ := (h.tail s.preheader).1 (he ▸ h.preheader_edge)
  have h₂ := (h.tail s.latch).1 (by simpa [he] using h.latch_edge)
  exact h.preheader_ne (h₁.trans (h₂.symm.trans he))

theorem preds_header : f.Edge x s.header ↔ x = s.preheader ∨ x = s.latch := by
  constructor
  · intro hx
    by_cases hin : f.InLoop e s.header x
    · exact .inr ((h.back x).1 ⟨hx, hin.dom⟩)
    · exact .inl ((h.enter x).1 ⟨hx, hin⟩)
  · rintro (rfl | rfl)
    · exact h.preheader_edge
    · exact h.latch_edge

theorem tail_in : f.InLoop e s.header s.bodyTail := by
  obtain ⟨y, hy, hw⟩ := h.latch_in.from_header h.latch_ne
  cases hw with
  | refl => exact absurd ((h.tail _).1 hy).symm h.bodyTail_ne
  | tail hw hbl _ => exact (h.tail _).1 hbl ▸ hw.last.1

theorem to_bodyTail (hx : f.InLoop e s.header x) (hne : x ≠ s.header) (hnl : x ≠ s.latch) :
    Walk f.Edge (fun z => f.InLoop e s.header z ∧ z ≠ s.header) x s.bodyTail := by
  obtain ⟨l, hb, hw⟩ := hx.to_latch hne
  obtain rfl := (h.back l).1 hb
  cases hw with
  | refl => exact absurd rfl hnl
  | tail hw hbl _ => exact (h.tail _).1 hbl ▸ hw

theorem bodyTail_ne_latch : s.bodyTail ≠ s.latch := fun he =>
  h.latch_ne ((h.round _).1 (by simpa [he] using h.tail_edge))

theorem dom_latch : Dom f.Edge e s.bodyTail s.latch := by
  refine Dom.of_preds h.latch_in.reach ?_ fun q hq hql => ?_
  · intro he
    refine h.latch_in.dom.2 ?_
    rw [he]
    exact .refl (he ▸ h.latch_ne)
  · obtain rfl := (h.tail q).1 hql
    exact .of_reach hq

theorem latch_not_header (q : BlockId) : ¬ f.InLoop e s.latch q := by
  intro hq
  obtain ⟨l, hb, -⟩ := hq
  obtain rfl := (h.tail l).1 hb.edge
  exact h.bodyTail_ne_latch (h.dom_latch.antisymm hb.dom)

theorem header_of_latch {q : BlockId} (hq : f.InLoop e q s.latch) : f.InLoop e q s.header := by
  have hne : s.latch ≠ q := by
    rintro rfl
    exact h.latch_not_header _ hq
  obtain ⟨l, hb, hw⟩ := hq.to_latch hne
  rcases hw.cases_head with rfl | ⟨y, hy, hw⟩
  · obtain rfl := (h.round q).1 hb.edge
    exact h.header_in
  · obtain rfl := (h.round y).1 hy
    exact hw.first.1

end Simple

end LoopShape

namespace FusionPlan

/-- Where the two loops of a plan lie. -/
structure Fits (p : FusionPlan) (f : Func) (e : BlockId) : Prop where
  first : p.first.Simple f e
  second : p.second.Simple f e
  unguarded : p.second.guard? = none
  meets : p.first.exit = p.second.preheader
  dom : Dom f.Edge e p.first.header p.second.header
  apart : ∀ x, f.InLoop e p.first.header x → ¬ f.InLoop e p.second.header x
  siblings : ∀ q, q ≠ p.first.header → q ≠ p.second.header →
    (f.InLoop e q p.first.header ↔ f.InLoop e q p.second.header)
  alone : ∀ q, f.Leads e q → f.Edge q p.second.preheader → q = p.first.header
  retired : p.retired = [p.second.preheader, p.second.header, p.second.latch]
  secondBody : ∀ x, x ∈ p.secondBody ↔
    f.InLoop e p.second.header x ∧ x ≠ p.second.header ∧ x ≠ p.second.latch
  nodupBody : p.secondBody.Nodup
  redirected : ∀ q, q ∈ p.redirected ↔
    f.Edge q p.second.preheader ∧ q ≠ p.first.header ∧ q ∉ p.retired

/-- What the blocks hold that a plan rewrites or drops. -/
structure Clean (p : FusionPlan) (f : Func) : Prop where
  latch : ∀ i ∈ f.body p.first.latch, ¬ f.isPhi i
  exit : f.phis p.second.exit = []
  first : p.first.iv ∈ f.phis p.first.header
  second : f.phis p.second.header = [p.second.iv]
  unneeded : ∀ r ∈ p.retired, ∀ i ∈ f.body r, ¬ f.writesMemory i ∧
    (f.hasResult i → i ≠ p.second.iv → ¬ isUsedOutside f p.retired i)

/-- A plan for two loops of a well-formed function that have passed all checks. -/
structure Accepted (p : FusionPlan) (f : Func) (e : BlockId) (a b : Loop) : Prop where
  wellFormed : f.WellFormed e
  first : a ∈ f.forest.loops
  second : b ∈ f.forest.loops
  legal : ∃ keep s s', (Checker.builtIn (.ofFunc f) keep).Legal a b s s'
  plan : p.Of f a b

end FusionPlan

namespace FusionPlan

variable {f : Func} {e x : BlockId} {p : FusionPlan} {a b : Loop}

/-- A pair that a verified function offers, that passes the checks and gets a plan. -/
theorem exists_accepted {keep : Bool} {s : Session} (hf : f.verify = .ok ())
    (ha : a ∈ f.forest.loops) (hb : b ∈ f.forest.loops)
    (hlegal : (((Checker.builtIn (.ofFunc f) keep).checkCandidate a b).verdict s).1 = .ok ())
    (hplan : ofLoops f a b = .ok p) : ∃ e, p.Accepted f e a b := by
  obtain ⟨e, hw⟩ := Func.wellFormed_of_verify hf
  have hl := Checker.verdict_eq_ok.1 (Prod.ext hlegal rfl)
  exact ⟨e, hw, ha, hb, ⟨keep, s, _, hl⟩, of_ofLoops hplan⟩

namespace Accepted

variable (h : p.Accepted f e a b)

include h

theorem simple_first : p.first.Simple f e := by
  obtain ⟨_, _, _, hl⟩ := h.legal
  exact LoopShape.simple_of_shaped h.wellFormed rfl h.first hl.first h.plan.first

theorem simple_second : p.second.Simple f e := by
  obtain ⟨_, _, _, hl⟩ := h.legal
  exact LoopShape.simple_of_shaped h.wellFormed rfl h.second hl.second h.plan.second

theorem accepts : ∃ c : Checker, c.Accepts f e a b := by
  obtain ⟨keep, hl⟩ := h.legal
  exact ⟨_, h.wellFormed, rfl, h.first, h.second, hl⟩

theorem gates_first : a.Gates f e p.first.preheader p.first.bodyHead p.first.exit where
  toGated := h.plan.first.header ▸ h.simple_first.toGated
  preheader := h.plan.first.preheader
  exits := h.plan.first.exit

theorem gates_second : b.Gates f e p.second.preheader p.second.bodyHead p.second.exit where
  toGated := h.plan.second.header ▸ h.simple_second.toGated
  preheader := h.plan.second.preheader
  exits := h.plan.second.exit

theorem dom : Dom f.Edge e p.first.header p.second.header := by
  obtain ⟨c, hc⟩ := h.accepts
  rw [h.plan.first.header, h.plan.second.header]
  exact hc.dom

theorem headers_ne : p.first.header ≠ p.second.header := by
  obtain ⟨c, hc⟩ := h.accepts
  rw [h.plan.first.header, h.plan.second.header]
  exact hc.headers_ne

theorem unguarded : p.second.guard? = none := by
  obtain ⟨c, hc⟩ := h.accepts
  rw [h.plan.second.guard]
  exact hc.unguarded_second

theorem meets : p.first.exit = p.second.preheader := by
  rw [h.plan.meets, LoopShape.entry, h.unguarded, Option.getD_none]

theorem siblings (q : BlockId) (hqa : q ≠ p.first.header) (hqb : q ≠ p.second.header) :
    f.InLoop e q p.first.header ↔ f.InLoop e q p.second.header := by
  obtain ⟨c, hc⟩ := h.accepts
  rw [h.plan.first.header, h.plan.second.header] at *
  exact hc.around_iff hqa hqb

theorem apart (x : BlockId) (hx : f.InLoop e p.first.header x) :
    ¬ f.InLoop e p.second.header x := by
  obtain ⟨c, hc⟩ := h.accepts
  rw [h.plan.first.header] at hx
  rw [h.plan.second.header]
  exact LoopForest.disjoint_siblings hc.inArena hc.entry h.first h.second hc.siblings hc.ne hx

theorem alone (q : BlockId) (hq : f.Leads e q) (hqp : f.Edge q p.second.preheader) :
    q = p.first.header := by
  obtain ⟨c, hc⟩ := h.accepts
  rw [h.plan.first.header]
  exact hc.alone (h.meets ▸ h.gates_first) h.gates_second hq hqp

theorem fits : p.Fits f e where
  first := h.simple_first
  second := h.simple_second
  unguarded := h.unguarded
  meets := h.meets
  dom := h.dom
  apart := h.apart
  siblings := h.siblings
  alone := h.alone
  retired := by rw [h.plan.retired, retiredOf, h.unguarded]; rfl
  secondBody := by
    have hr := LoopForest.region_is h.wellFormed.inArena h.wellFormed.entry h.second
    intro x
    rw [h.plan.secondBody, Loop.bodyBlocks, List.mem_filter, h.plan.second.header]
    have hlatch : x ∈ b.latches ↔ x = p.second.latch := by
      rw [← h.simple_second.back, h.plan.second.header]
      exact hr.latches x
    have hin : x ∈ b.blocks ↔ f.InLoop e b.header x := hr.blocks x
    simp [hlatch, hin]
  nodupBody := by
    rw [h.plan.secondBody]
    exact (LoopForest.region_is h.wellFormed.inArena h.wellFormed.entry h.second).nodup.filter _
  redirected := by
    intro q
    rw [h.plan.redirected, LoopShape.entry, h.unguarded, Option.getD_none, List.mem_filter,
      LoopShape.mem_predecessors]
    simp

theorem counter_first : ∃ iv, a.iv? = some iv ∧ p.first.iv = iv.phi ∧ p.first.next = iv.next ∧
    f.Counter p.first.header p.first.preheader p.first.latch iv := by
  obtain ⟨iv, hiv, hphi, hnext⟩ := h.plan.first.counter
  refine ⟨iv, hiv, hphi, hnext, ?_⟩
  rw [h.plan.first.header]
  exact LoopForest.counter h.first h.plan.first.preheader h.plan.first.latch hiv

theorem clean : p.Clean f where
  latch := by
    obtain ⟨iv, -, -, hnext, hc⟩ := h.counter_first
    intro i hi hphi
    rcases h.plan.counts i hi with rfl | ht
    · obtain ⟨op, hop, hinc⟩ := hc.next
      rw [hnext, Func.isPhi, hop, Option.any_some] at hphi
      obtain ⟨c, ⟨rfl, -⟩ | ⟨rfl, -⟩ | ⟨rfl, -⟩⟩ := Region.increment?_spec hinc <;> cases hphi
    · exact Func.not_isPhi_of_isTerminator ht hphi
  exit := h.plan.exitPhis
  first := by
    obtain ⟨iv, -, hphi, -, hc⟩ := h.counter_first
    exact hphi ▸ hc.mem
  second := h.plan.phis
  unneeded := h.plan.unneeded

end Accepted

namespace Fits

variable (h : p.Fits f e)

include h

theorem header_ne : p.first.header ≠ p.second.header :=
  fun he => h.apart _ h.first.header_in (he ▸ h.second.header_in)

theorem mem_retired :
    x ∈ p.retired ↔ x = p.second.preheader ∨ x = p.second.header ∨ x = p.second.latch := by
  simp [h.retired]

theorem into_retired {y : BlockId} (he : f.Edge x y) (hx : x ∉ p.retired) (hy : y ∈ p.retired) :
    y = p.second.preheader ∧ (x = p.first.header ∨ x ∈ p.redirected) ∨
      y = p.second.latch ∧ x = p.second.bodyTail := by
  rcases h.mem_retired.1 hy with rfl | rfl | rfl
  · by_cases hxa : x = p.first.header
    · exact .inl ⟨rfl, .inl hxa⟩
    · exact .inl ⟨rfl, .inr ((h.redirected x).2 ⟨he, hxa, hx⟩)⟩
  · have := h.second.preds_header.1 he
    exact absurd (h.mem_retired.2 (this.imp_right .inr)) hx
  · exact .inr ⟨rfl, (h.second.tail x).1 he⟩

theorem exit_edge : f.Edge p.first.header p.second.preheader := h.meets ▸ h.first.exit_edge

theorem preheader_reach : f.Leads e p.second.preheader := h.first.reach.tail h.exit_edge

theorem preheader_out : ¬ f.InLoop e p.first.header p.second.preheader := h.meets ▸ h.first.exit_out

theorem exit_out : ¬ f.InLoop e p.first.header p.second.exit := by
  intro hin
  by_cases he : p.second.exit = p.first.header
  · have hback : f.Back e p.second.header p.first.header := ⟨he ▸ h.second.exit_edge, h.dom⟩
    exact h.apart _ hback.inLoop h.second.header_in
  · exact h.apart _ (hin.back he h.second.reach h.second.exit_edge) h.second.header_in

theorem exit_ne_preheader : p.second.exit ≠ p.second.preheader := fun he =>
  h.header_ne.symm (h.alone _ h.second.reach (he ▸ h.second.exit_edge))

theorem bodyTails_ne : p.first.bodyTail ≠ p.second.bodyTail := fun he =>
  h.apart _ h.first.tail_in (he ▸ h.second.tail_in)

theorem second_tail_ne : p.second.bodyTail ≠ p.first.header := fun he =>
  h.apart _ h.first.header_in (he ▸ h.second.tail_in)

theorem bodyHead_ne_latch : p.second.bodyHead ≠ p.first.latch := fun he =>
  h.apart _ h.first.latch_in (he ▸ h.second.bodyHead_in)

theorem not_redirected_first (hx : f.InLoop e p.first.header x) : x ∉ p.redirected := by
  intro hm
  obtain ⟨hedge, hne, -⟩ := (h.redirected x).1 hm
  exact hne (h.first.leave x _ hx hedge h.preheader_out).1

theorem not_redirected_second (hx : f.InLoop e p.second.header x) : x ∉ p.redirected := by
  intro hm
  obtain ⟨hedge, hne, -⟩ := (h.redirected x).1 hm
  exact hne (h.alone x hx.reach hedge)

theorem not_redirected_of_reach (hx : f.Leads e x) : x ∉ p.redirected := by
  intro hm
  obtain ⟨hedge, hne, -⟩ := (h.redirected x).1 hm
  exact hne (h.alone x hx hedge)

theorem not_retired_first (hx : f.InLoop e p.first.header x) : x ∉ p.retired := by
  rw [h.retired]
  simp only [List.mem_cons, List.not_mem_nil, or_false, not_or]
  refine ⟨fun he => h.preheader_out (he ▸ hx), fun he => ?_, fun he => ?_⟩
  · exact h.apart x hx (he ▸ h.second.header_in)
  · exact h.apart x hx (he ▸ h.second.latch_in)

theorem not_retired_body (hx : x ∈ p.secondBody) : x ∉ p.retired := by
  obtain ⟨hin, hne, hne'⟩ := (h.secondBody x).1 hx
  rw [h.retired]
  simp only [List.mem_cons, List.not_mem_nil, or_false, not_or]
  exact ⟨fun he => h.second.preheader_out (he ▸ hin), hne, hne'⟩

theorem exit_not_retired : p.second.exit ∉ p.retired := by
  rw [h.retired]
  simp only [List.mem_cons, List.not_mem_nil, or_false, not_or]
  exact ⟨h.exit_ne_preheader, h.second.exit_ne, fun he => h.second.exit_out (he ▸ h.second.latch_in)⟩

theorem bodyHead_mem : p.second.bodyHead ∈ p.secondBody :=
  (h.secondBody _).2 ⟨h.second.bodyHead_in, h.second.bodyHead_ne.2, h.second.bodyHead_ne.1⟩

theorem bodyTail_mem : p.second.bodyTail ∈ p.secondBody := by
  refine (h.secondBody _).2 ⟨h.second.tail_in, h.second.bodyTail_ne, fun he => ?_⟩
  have := (h.second.round p.second.latch).1 (by simpa [he] using h.second.tail_edge)
  exact h.second.latch_ne this

end Fits

end FusionPlan

/-! The two loops of the sample function. -/

theorem Func.length_twoLoops : twoLoops.forest.loops.length = 2 := by decide +kernel

namespace Loop

def first : Loop := Func.twoLoops.forest.loops.get ⟨0, by rw [Func.length_twoLoops]; decide⟩

def second : Loop := Func.twoLoops.forest.loops.get ⟨1, by rw [Func.length_twoLoops]; decide⟩

theorem first_mem : first ∈ Func.twoLoops.forest.loops := List.get_mem _ _

theorem second_mem : second ∈ Func.twoLoops.forest.loops := List.get_mem _ _

end Loop

theorem FusionPlan.legal_twoLoops : (((Checker.builtIn (.ofFunc Func.twoLoops) true).checkCandidate
    .first .second).verdict .start).1 = .ok () :=
  eq_ok_of_isOk (by decide +kernel)

theorem FusionPlan.exists_plan_twoLoops : ∃ p, ofLoops Func.twoLoops .first .second = .ok p :=
  exists_eq_ok (by decide +kernel)

end LoopFusion
