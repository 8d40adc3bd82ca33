import LoopFusion.Proofs.Fusion.FusedBlock
import LoopFusion.Proofs.Fusion.Leak

/-!
What the blocks of two fused loops read. Outside the loops and in the first one no value is read that
the retired blocks compute, in the first loop none of the second, and in the second none of the
first. Only the second counter is read, and the first stands for it.
-/

namespace LoopFusion

open Relation LoopFusion.Flow

/-- The value is computed in the loop of `h`. -/
def Func.Computes (f : Func) (e h : BlockId) (d : InstId) : Prop :=
  ∃ c, f.InLoop e h c ∧ d ∈ f.body c

namespace FusionPlan

variable {p : FusionPlan} {f : Func} {e b c q : BlockId} {i d : InstId} {op : Operation}
  {args : List Int} {w : Visit}

/-- No retired block computes the value. -/
def Stays (p : FusionPlan) (f : Func) (d : InstId) : Prop := ∀ c ∈ p.retired, d ∉ f.body c

/-- What is read outside the two loops. -/
def ReadOutside (p : FusionPlan) (f : Func) (d : InstId) : Prop := p.Stays f d ∨ d = p.second.iv

/-- What is read in the first loop. -/
def ReadFirst (p : FusionPlan) (f : Func) (e : BlockId) (d : InstId) : Prop :=
  p.Stays f d ∧ ¬ f.Computes e p.second.header d

/-- What is read in the second loop. -/
def ReadSecond (p : FusionPlan) (f : Func) (e : BlockId) (d : InstId) : Prop :=
  p.ReadOutside f d ∧ ¬ f.Computes e p.first.header d

/-- The second loop reads nothing that the first computes. -/
def Sealed (p : FusionPlan) (f : Func) (e : BlockId) : Prop :=
  ∀ b, f.InLoop e p.second.header b → ∀ i ∈ f.body b, ∀ d ∈ f.uses i,
    ¬ f.Computes e p.first.header d

theorem Accepted.sealed {x y : Loop} (h : p.Accepted f e x y) : p.Sealed f e := by
  have hw := h.wellFormed
  obtain ⟨_, _, _, hlegal⟩ := h.legal
  rw [Sealed, h.plan.first.header, h.plan.second.header]
  rintro b hb i hi d hd ⟨c, hc, hdc⟩
  have hread : d ∈ Checker.reads f y := by
    refine List.mem_reverse.2 (List.mem_append_left _ (List.mem_flatMap.2 ⟨i, ?_, hd⟩))
    exact List.mem_flatMap.2
      ⟨b, ((LoopForest.region_is hw.inArena hw.entry h.second).blocks b).2 hb, hi⟩
  refine Checker.not_read_of_leak? hlegal.scalars hread ?_
  obtain ⟨_, hedge⟩ := hc.exists_edge
  change (f.owner? d).any x.contains
  rw [hw.owner c hedge.1 d hdc]
  exact (LoopForest.contains_iff hw.inArena hw.entry h.first).2 hc

section

variable (hw : f.WellFormed e) (hp : p.Fits f e) (hc : p.Clean f)

theorem Stays.ne (hc : p.Clean f) (hp : p.Fits f e) (h : p.Stays f d) : d ≠ p.second.iv := by
  rintro rfl
  exact h _ (hp.mem_retired.2 (.inr (.inl rfl))) hc.mem_body_second

include hp in
theorem retired_live (h : c ∈ p.retired) : c ∈ f.layout := by
  rcases hp.mem_retired.1 h with rfl | rfl | rfl
  · exact hp.second.preheader_edge.1
  · exact hp.second.exit_edge.1
  · exact hp.second.latch_edge.1

include hw hp

theorem stays_of_mem (hb : b ∈ f.layout) (hr : b ∉ p.retired) (hi : i ∈ f.body b) : p.Stays f i :=
  fun _ hcr hic => hr (hw.block_unique (retired_live hp hcr) hb hic hi ▸ hcr)

omit hp in
theorem computes_iff {h : BlockId} (hb : b ∈ f.layout) (hi : i ∈ f.body b) :
    f.Computes e h i ↔ f.InLoop e h b := by
  constructor
  · rintro ⟨c, hc, hic⟩
    obtain ⟨_, hedge⟩ := hc.exists_edge
    exact hw.block_unique hedge.1 hb hic hi ▸ hc
  · exact fun h => ⟨b, h, hi⟩

/-- What dominates a block of the first loop is not in the second. -/
theorem not_computes_of_ahead (hb : f.InLoop e p.first.header b) (h : f.Ahead e b (.inst d)) :
    ¬ f.Computes e p.second.header d := by
  obtain ⟨c, hc, hd, hdom⟩ := h
  rw [computes_iff hw hc hd]
  intro hin
  have hout : ¬ f.InLoop e p.first.header c := fun h => hp.apart c h hin
  have heq := (hb.dom_of_outside hdom hout).antisymm (hp.dom.trans hin.dom)
  exact hout (heq ▸ hp.first.header_in)

/-- Nor is what dominates the way into a block of the first loop. -/
theorem not_computes_of_incoming (hb : f.InLoop e p.first.header b) (hq : f.Leads e q)
    (hqb : f.Edge q b) (h : f.Ahead e q (.inst d)) : ¬ f.Computes e p.second.header d := by
  by_cases hin : f.InLoop e p.first.header q
  · exact not_computes_of_ahead hw hp hin h
  · have hb : b = p.first.header := by
      by_contra hne
      exact hin (hb.back hne hq hqb)
    subst hb
    obtain rfl := (hp.first.enter q).1 ⟨hqb, hin⟩
    rintro ⟨c, hc, hd⟩
    obtain ⟨c', hc', hd', hdom⟩ := h
    obtain ⟨_, hedge⟩ := hc.exists_edge
    obtain rfl := hw.block_unique hc' hedge.1 hd' hd
    exact hp.first.not_dom_preheader ((hp.dom.trans hc.dom).trans hdom)

include hc

/-- What a block that stays reads is kept, or it is the second counter. -/
theorem readOutside_of_use (hb : b ∈ f.layout) (hr : b ∉ p.retired) (hi : i ∈ f.body b)
    (hop : f.op? i = some op) (hv : .inst d ∈ op.operands) (hu : f.Usable (.inst d)) :
    p.ReadOutside f d := by
  by_cases hd : d = p.second.iv
  · exact .inr hd
  · obtain ⟨⟨db, dk⟩, hplace⟩ := Option.isSome_iff_exists.1 hu.1
    have hdr := hc.not_retired_of_use hw hb hr hi hop hv hu hd hplace
    obtain ⟨hdb, hdk⟩ := Func.mem_of_placeOf? hplace
    exact .inl (stays_of_mem hw hp hdb hdr hdk)

theorem suffices_outside (hb : b ∈ f.layout) (hr : b ∉ p.retired) (hne : b ≠ p.first.header) :
    p.Suffices f (p.ReadOutside f) b where
  live := hb
  stays := hr
  own := fun i hi => .inl (stays_of_mem hw hp hb hr hi)
  counter := fun _ => hne
  operands := fun i hi op hop hphi d hd => by
    obtain ⟨k, hk⟩ := List.mem_iff_getElem?.1 hi
    exact readOutside_of_use hw hp hc hb hr hi hop hd (hw.uses b hb k i hk op hop hphi _ hd).1

theorem suffices_first (hb : b ∈ f.layout) (hin : f.InLoop e p.first.header b) :
    p.Suffices f (p.ReadFirst f e) b where
  live := hb
  stays := hp.not_retired_first hin
  own := fun i hi => ⟨stays_of_mem hw hp hb (hp.not_retired_first hin) hi, fun h =>
    hp.apart b hin ((computes_iff hw hb hi).1 h)⟩
  counter := fun h => absurd rfl (h.1.ne hc hp)
  operands := fun i hi op hop hphi d hd => by
    have hr := hp.not_retired_first hin
    have hdef := hw.defined_operand hb hin.reach hi hop hphi hd
    have hnot := not_computes_of_ahead hw hp hin hdef.ahead
    refine ⟨(readOutside_of_use hw hp hc hb hr hi hop hd hdef.usable).resolve_right ?_, hnot⟩
    rintro rfl
    exact hnot ⟨_, hp.second.header_in, hc.mem_body_second⟩

theorem suffices_second (hs : p.Sealed f e) (hb : b ∈ f.layout) (hr : b ∉ p.retired)
    (hin : f.InLoop e p.second.header b) : p.Suffices f (p.ReadSecond f e) b where
  live := hb
  stays := hr
  own := fun i hi => ⟨.inl (stays_of_mem hw hp hb hr hi), fun h =>
    hp.apart b ((computes_iff hw hb hi).1 h) hin⟩
  counter := by
    rintro - rfl
    exact hp.apart _ hp.first.header_in hin
  operands := fun i hi op hop hphi d hd => by
    have hdef := hw.defined_operand hb hin.reach hi hop hphi hd
    refine ⟨readOutside_of_use hw hp hc hb hr hi hop hd hdef.usable, hs b hin i hi d ?_⟩
    rw [Func.uses, hop]
    exact List.mem_filterMap.2 ⟨_, hd, rfl⟩

theorem readFirst_counter : p.ReadFirst f e p.first.iv := by
  have hlive := hp.first.exit_edge.1
  refine ⟨stays_of_mem hw hp hlive (hp.not_retired_first hp.first.header_in) hc.mem_body_first,
    fun h => ?_⟩
  exact hp.apart _ hp.first.header_in ((computes_iff hw hlive hc.mem_body_first).1 h)

omit hc in
theorem not_computes_both (h : f.Computes e p.second.header d) :
    ¬ f.Computes e p.first.header d := by
  obtain ⟨c, hc, hd⟩ := h
  obtain ⟨_, hedge⟩ := hc.exists_edge
  rw [computes_iff hw hedge.1 hd]
  exact fun h => hp.apart c h hc

/-! Phis read at the end of the block that control comes from. -/

omit hw hp hc in
theorem mem_operands_of_choice? {v : Value} (h : f.choice? (some q) i = some v) :
    ∃ op, f.op? i = some op ∧ v ∈ op.operands := by
  rw [Func.choice?, Option.bind_some, Func.incoming] at h
  cases hop : f.op? i with
  | none => simp [hop] at h
  | some op =>
    rw [hop] at h
    cases op with
    | phi incoming => exact ⟨_, rfl, List.mem_map.2 ⟨_, mem_of_lookup h, rfl⟩⟩
    | _ => cases h

section Entering

variable (hb : b ∈ f.layout) (hr : b ∉ p.retired) (hq : f.Leads e q) (hqb : f.Edge q b)
  (hi : i ∈ f.phis b) (h : f.choice? (some q) i = some (.inst d))

include hb hr hq hqb hi h

theorem readOutside_of_choice? : p.ReadOutside f d := by
  have hib : i ∈ f.body b := (List.takeWhile_sublist _).mem hi
  obtain ⟨op, hop, hv⟩ := mem_operands_of_choice? h
  exact readOutside_of_use hw hp hc hb hr hib hop hv (hw.defined_incoming hb hq hqb hib h).usable

omit hr in
theorem readFirst_of_choice? (hin : f.InLoop e p.first.header b) : p.ReadFirst f e d := by
  have hib : i ∈ f.body b := (List.takeWhile_sublist _).mem hi
  have hdef := hw.defined_incoming hb hq hqb hib h
  have hnot := not_computes_of_incoming hw hp hin hq hqb hdef.ahead
  refine ⟨(readOutside_of_choice? hw hp hc hb (hp.not_retired_first hin) hq hqb hi h).resolve_right ?_,
    hnot⟩
  rintro rfl
  exact hnot ⟨_, hp.second.header_in, hc.mem_body_second⟩

theorem readSecond_of_choice? (hs : p.Sealed f e) (hin : f.InLoop e p.second.header b) :
    p.ReadSecond f e d := by
  refine ⟨readOutside_of_choice? hw hp hc hb hr hq hqb hi h,
    hs b hin i ((List.takeWhile_sublist _).mem hi) d ?_⟩
  obtain ⟨op, hop, hv⟩ := mem_operands_of_choice? h
  rw [Func.uses, hop]
  exact List.mem_filterMap.2 ⟨_, hv, rfl⟩

end Entering

end

end FusionPlan

end LoopFusion
