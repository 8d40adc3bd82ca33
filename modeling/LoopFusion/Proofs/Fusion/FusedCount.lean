import LoopFusion.Proofs.Fusion.FusedForest
import LoopFusion.Proofs.Symbolic.Mirror

/-!
The trip count of the fused loop. What decides it is computed before the first loop or in its
header, where fusion changes nothing.
-/

namespace LoopFusion

open Relation LoopFusion.Flow

theorem StayTest.ofLoop?_eq {f : Func} {l : Loop} {c : Value} {t t' : BlockId}
    (hexit : l.exiting = [l.header]) (hop : f.exitOp? l.header = some (.condBr c t t')) :
    ofLoop? f l = l.iv?.bind fun iv => (stayOnTrue? l t t').bind fun stay =>
      ((c.inst?.bind f.op?).bind (orient? iv)).map fun (test, bound) =>
        ⟨iv, if stay then test else test.inverse, bound⟩ := by
  simp only [ofLoop?, hexit, hop, guard, if_true, Option.bind_eq_bind, Option.bind_some,
    Option.pure_def, Option.map_eq_bind, Option.bind_assoc, Function.comp_def]

namespace FusionPlan

variable {p : FusionPlan} {f : Func} {e d q x : BlockId} {i : InstId} {v : Value} {op : Operation}
  {a b l m : Loop}

/-- The result of an instruction that control passes before it comes to the first header. -/
def Early (p : FusionPlan) (f : Func) (e : BlockId) (v : Value) : Prop :=
  f.Ahead e p.first.header v ∧ ∀ i, v = .inst i → f.hasResult i

section Early

variable (hw : f.WellFormed e) (hp : p.Fits f e)

include hw hp

omit hw in
theorem not_dom_of_dom_first (hd : Dom f.Edge e d p.first.header) :
    ¬ Dom f.Edge e p.second.header d := fun h =>
  hp.header_ne (hp.dom.antisymm (h.trans hd))

omit hw in
theorem not_inside_of_dom_first (hd : Dom f.Edge e d p.first.header) (hne : d ≠ p.first.header) :
    ¬ p.Inside f e d := fun hin => hne (hd.antisymm (hp.dom_of_inside hin))

/-- What is in front of the first loop is in the same loops as before. -/
theorem inLoop_early_iff (hd : Dom f.Edge e d p.first.header) :
    (p.fused f).InLoop e q d ↔ f.InLoop e q d := by
  have hb : ¬ f.InLoop e p.second.header d := fun h => not_dom_of_dom_first hp hd h.dom
  have hr : d ∉ p.retired := by
    by_cases hda : d = p.first.header
    · exact hda ▸ hp.not_retired_first hp.first.header_in
    · exact fun h => not_inside_of_dom_first hp hd hda (hp.inside_of_retired h)
  rw [inLoop_fused_iff hw hp]
  constructor
  · rintro (⟨h, -, -⟩ | ⟨-, h⟩)
    · exact h
    · exact absurd ((hp.secondBody d).1 h).1 hb
  · intro h
    refine .inl ⟨h, ?_, hr⟩
    rintro rfl
    exact hb h

omit hp in
theorem operand_early (hi : p.Early f e (.inst i)) (hop : f.op? i = some op) (hphi : ¬ op.isPhi)
    (hv : v ∈ op.operands) : p.Early f e v := by
  obtain ⟨⟨d, hd, hid, hdom⟩, -⟩ := hi
  obtain ⟨k, hk⟩ := List.mem_iff_getElem?.1 hid
  obtain ⟨hu, hav⟩ := hw.uses d hd k i hk op hop hphi v hv
  refine ⟨(hav.ahead hdom.reach_left).trans hdom, ?_⟩
  rintro j rfl
  exact hu.2

variable (hc : p.Clean f)

include hc

theorem op?_fused_early (hi : p.Early f e (.inst i)) : (p.fused f).op? i = f.op? i ∨
    ∃ old new, f.op? i = some (.phi old) ∧ (p.fused f).op? i = some (.phi new) :=
  op?_fused_of_ahead hw hp hc (not_dom_of_dom_first hp (.of_reach hp.first.reach)) hi.1 (hi.2 i rfl)

end Early

theorem symbolName_fused (hw : f.WellFormed e) (hp : p.Fits f e) (v : Value) :
    (p.fused f).symbolName v = f.symbolName v := by
  have hname : (p.fused f).valueName v = f.valueName v := by
    cases v with
    | const c => rfl
    | param k => rw [Func.valueName, Func.valueName, params_fused hw hp]
    | inst i =>
      have hlabel := label_fused hw hp i
      have hbind : ((p.fused f).inst? i).bind (·.name) = (f.inst? i).bind (·.name) := by
        cases h : (p.fused f).inst? i <;> cases h' : f.inst? i <;> simp_all
      rw [Func.valueName, Func.valueName, hbind]
  cases v <;> simp only [Func.symbolName, hname]

section Loop

variable (h : p.Accepted f e a b)

include h

theorem Accepted.start_early {iv : InductionVariable} (hiv : a.iv? = some iv) :
    p.Early f e iv.start := by
  have hw := h.wellFormed
  have hp := h.fits
  have hne := entry_ne_header hw hp
  have hc := LoopForest.counter h.first h.plan.first.preheader h.plan.first.latch hiv
  rw [← h.plan.first.header] at hc
  obtain ⟨incoming, hop, -, hstart, -⟩ := hc.incoming
  have hib := (List.takeWhile_sublist _).mem hc.mem
  obtain ⟨-, -, hval⟩ := hw.phis _ hp.first.exit_edge.1 hp.first.reach _ hib _ hop
  obtain ⟨hu, hav⟩ := hval _ _ (mem_of_lookup hstart)
  refine ⟨(hav.ahead (hp.first.preheader_reach hne)).trans (hp.first.dom_preheader hne), ?_⟩
  intro i hi
  rw [hi] at hu
  exact hu.2

/-- The innermost loop around a block in front of the first loop keeps its header. -/
theorem Accepted.loopFor?_early (hd : Dom f.Edge e d p.first.header) :
    f.forest.loopFor? d = none ∧ (p.fused f).forest.loopFor? d = none ∨
      ∃ m ∈ f.forest.loops, ∃ m' ∈ (p.fused f).forest.loops, f.forest.loopFor? d = some m.id ∧
        (p.fused f).forest.loopFor? d = some m'.id ∧ m'.header = m.header := by
  have hw := h.wellFormed
  have hp := h.fits
  have hf := hw.inArena
  have he := hw.entry
  have hf' := h.inArena_fused
  have he' := entry_fused hw hp
  have hin : ∀ q, (p.fused f).InLoop e q d ↔ f.InLoop e q d := fun q => inLoop_early_iff hw hp hd
  cases hm : f.forest.loopFor? d with
  | none =>
    refine .inl ⟨rfl, ?_⟩
    by_contra hne
    obtain ⟨i, hi⟩ := Option.ne_none_iff_exists'.1 hne
    obtain ⟨m, -, -, hmd, -⟩ := LoopForest.loopFor?_eq_some hf' he' hi
    exact LoopForest.loopFor?_eq_none hf he hm _ ((hin _).1 hmd)
  | some i =>
    obtain ⟨m, hml, rfl, hmd, hleast⟩ := LoopForest.loopFor?_eq_some hf he hm
    cases hm' : (p.fused f).forest.loopFor? d with
    | none => exact absurd ((hin _).2 hmd) (LoopForest.loopFor?_eq_none hf' he' hm' _)
    | some i' =>
      obtain ⟨m', hml', rfl, hmd', hleast'⟩ := LoopForest.loopFor?_eq_some hf' he' hm'
      refine .inr ⟨m, hml, m', hml', rfl, rfl, (hleast _ ((hin _).1 hmd')).antisymm ?_⟩
      rcases (inLoop_fused_iff hw hp).1 (hleast' _ ((hin _).2 hmd)) with ⟨hx, -, -⟩ | ⟨-, hx⟩
      · exact hx
      · refine absurd (((hp.secondBody _).1 hx).1.trans ((hin _).1 hmd')) fun hbd => ?_
        exact not_dom_of_dom_first hp hd hbd.dom

variable (hl : l ∈ (p.fused f).forest.loops) (hlh : l.header = p.first.header)

include hl hlh

theorem Accepted.id_eq_iff {m m' : Loop} (hm : m ∈ f.forest.loops)
    (hm' : m' ∈ (p.fused f).forest.loops) (hsame : m'.header = m.header) :
    m'.id = l.id ↔ m.id = a.id := by
  have hw := h.wellFormed
  constructor
  · intro hid
    rw [LoopForest.eq_of_id hm' hl hid, hlh, h.plan.first.header] at hsame
    rw [LoopForest.eq_of_header hw.inArena hw.entry h.first hm hsame]
  · intro hid
    rw [LoopForest.eq_of_id hm h.first hid, ← h.plan.first.header, ← hlh] at hsame
    rw [LoopForest.eq_of_header h.inArena_fused (entry_fused hw h.fits) hm' hl hsame]

theorem Accepted.standing_fused (hd : Dom f.Edge e d p.first.header) :
    Describe.Standing.Twin a.id l.id (Describe.standing f.forest (some a.id) d)
      (Describe.standing (p.fused f).forest (some l.id) d) := by
  have hw := h.wellFormed
  have hp := h.fits
  unfold Describe.standing
  rcases h.loopFor?_early hd with ⟨hnone, hnone'⟩ | ⟨m, hm, m', hm', hfor, hfor', hsame⟩
  · rw [hnone, hnone']
    exact .before
  · have hid := h.id_eq_iff hl hlh hm hm' hsame
    have henc : (p.fused f).forest.encloses m'.id l.id ↔ f.forest.encloses m.id a.id := by
      rw [LoopForest.encloses_iff h.inArena_fused (entry_fused hw hp) hl hm',
        LoopForest.encloses_iff hw.inArena hw.entry h.first hm, hsame, hlh, ← h.plan.first.header]
      exact inLoop_early_iff hw hp (.of_reach hp.first.reach)
    rw [hfor, hfor']
    by_cases hma : m.id = a.id
    · simp only [hma, hid.2 hma, if_true]
      exact .within
    · simp only [if_neg hma, if_neg (mt hid.1 hma), henc]
      split
      · exact .before
      · exact .elsewhere

theorem Accepted.copies :
    Describe.Copies f (p.fused f) f.forest (p.fused f).forest a.id l.id (p.Early f e) where
  param k := symbolName_fused h.wellFormed h.fits _
  name i _ := symbolName_fused h.wellFormed h.fits _
  inst := by
    intro i hi
    have hw := h.wellFormed
    have hp := h.fits
    obtain ⟨⟨d, hd, hid, hdom⟩, -⟩ := id hi
    obtain ⟨op, hop⟩ := hw.known d hd i hid
    have hown := hw.owner d hd i hid
    obtain ⟨entry, hentry, rfl⟩ := Option.map_eq_some_iff.1 hop
    have hown' := owner_fused hw hp i
    rw [hown] at hown'
    obtain ⟨entry', hentry', hblock'⟩ := Option.map_eq_some_iff.1 hown'
    have hblock : entry.block = d := by
      rw [Func.owner?, hentry] at hown
      exact Option.some.inj hown
    refine ⟨entry, entry', hentry, hentry', ?_, ?_⟩
    · have hop' : (p.fused f).op? i = some entry'.op := by rw [Func.op?, hentry']; rfl
      rcases op?_fused_early hw hp h.clean hi with hsame | ⟨old, new, h₁, h₂⟩
      · rw [hop, hop'] at hsame
        exact .inl (Option.some.inj hsame)
      · rw [Option.some.inj (hop'.symm.trans h₂), Option.some.inj (hop.symm.trans h₁)]
        exact .inr ⟨rfl, rfl⟩
    · rw [hblock, hblock']
      exact h.standing_fused hl hlh hdom
  operands i hi op hop hphi v hv := operand_early h.wellFormed hi hop hphi hv
  counter := by
    rw [LoopForest.loop?_id hl, LoopForest.loop?_id h.first, Option.bind_some, Option.bind_some,
      h.counter_fused hl hlh]
  start iv hiv := by
    rw [LoopForest.loop?_id h.first, Option.bind_some] at hiv
    exact h.start_early hiv

omit hl hlh in
theorem Accepted.branch_first : ∃ c t t', f.exitOp? p.first.header = some (.condBr c t t') ∧
    p.Early f e c ∧ a.contains p.first.bodyHead ∧ ¬ a.contains p.first.exit ∧
      (t = p.first.bodyHead ∧ t' = p.first.exit ∨ t = p.first.exit ∧ t' = p.first.bodyHead) := by
  have hw := h.wellFormed
  have hp := h.fits
  obtain ⟨c, t, t', hop, hhead⟩ := h.plan.first.branch
  rw [← h.plan.first.header] at hop
  obtain ⟨hin, hout, hte⟩ := LoopShape.bodyHead?_eq_some hhead
  refine ⟨c, t, t', hop, ?_, hin, hout, ?_⟩
  · obtain ⟨j, hj, hopj, -⟩ := Func.exitOp?_eq_some hop
    obtain ⟨k, hk⟩ := List.mem_iff_getElem?.1 (List.mem_of_getLast? hj)
    obtain ⟨hu, hav⟩ := hw.uses _ hp.first.exit_edge.1 k j hk _ hopj (by simp [Operation.isPhi]) c
      (by simp [Operation.operands])
    refine ⟨hav.ahead hp.first.reach, ?_⟩
    rintro i rfl
    exact hu.2
  · rcases hte with ⟨h₁, h₂⟩ | ⟨h₁, h₂⟩
    · exact .inl ⟨h₁.symm, h₂.symm⟩
    · exact .inr ⟨h₂.symm, h₁.symm⟩

omit hl in
theorem Accepted.branch_fused {c : Value} {t t' : BlockId}
    (hop : f.exitOp? p.first.header = some (.condBr c t t')) (hc : p.Early f e c) :
    (p.fused f).exitOp? l.header = some (.condBr c (replace p.second.preheader p.second.exit t)
      (replace p.second.preheader p.second.exit t')) := by
  have hw := h.wellFormed
  have hp := h.fits
  have hren : p.renamed c = c := renamed_of_ne
    (ne_second hw hp h.clean hc.1 (not_dom_of_dom_first hp (.of_reach hp.first.reach)))
  rw [hlh, exitOp?_fused hw hp hp.first.exit_edge.1 hp.header_ne, hop, Option.map_some,
    fusedOp_of_terminator rfl]
  simp only [Operation.mapOperands, Operation.mapTargets, hren, retarget, true_or, if_true]

theorem Accepted.test_fused : StayTest.ofLoop? (p.fused f) l = StayTest.ofLoop? f a := by
  have hw := h.wellFormed
  have hp := h.fits
  obtain ⟨_, _, _, hlegal⟩ := h.legal
  obtain ⟨c, t, t', hop, hc, hin, hout, htt⟩ := h.branch_first
  have hop' := h.branch_fused hlh hop hc
  have hmem : ∀ x, l.contains x ↔ p.Merged f e x := fun x =>
    (LoopForest.contains_iff h.inArena_fused (entry_fused hw hp) hl).trans (h.inLoop_iff hlh)
  have hin' : l.contains p.first.bodyHead = true := (hmem _).2 (.inl hp.first.bodyHead_in)
  have hout' : l.contains p.second.exit = false := by
    rw [← Bool.not_eq_true, hmem]
    exact fun hm => hp.exit_outside (hp.merged_iff.1 hm).1
  have hmp : p.first.bodyHead ≠ p.second.preheader := fun he =>
    hp.preheader_out (he ▸ hp.first.bodyHead_in)
  have hout : a.contains p.first.exit = false := by simpa using hout
  have hpre : replace p.second.preheader p.second.exit p.first.exit = p.second.exit := if_pos hp.meets
  have hbody : replace p.second.preheader p.second.exit p.first.bodyHead = p.first.bodyHead :=
    if_neg hmp
  have hstay : StayTest.stayOnTrue? l (replace p.second.preheader p.second.exit t)
      (replace p.second.preheader p.second.exit t') = StayTest.stayOnTrue? a t t' := by
    rcases htt with ⟨rfl, rfl⟩ | ⟨rfl, rfl⟩ <;>
      rw [hpre, hbody, StayTest.stayOnTrue?, StayTest.stayOnTrue?, hin', hout', hin, hout]
  have hcond : ∀ iv, (c.inst?.bind (p.fused f).op?).bind (StayTest.orient? iv) =
      (c.inst?.bind f.op?).bind (StayTest.orient? iv) := by
    intro iv
    cases c with
    | inst j =>
      rw [Value.inst?, Option.bind_some, Option.bind_some]
      rcases op?_fused_early hw hp h.clean hc with hsame | ⟨old, new, h₁, h₂⟩
      · rw [hsame]
      · rw [h₁, h₂]
        rfl
    | _ => rfl
  rw [h.plan.first.header] at hop
  rw [StayTest.ofLoop?_eq (h.exiting_fused hl hlh) hop', StayTest.ofLoop?_eq hlegal.first.exiting hop,
    h.counter_fused hl hlh, hstay]
  simp only [hcond]

omit hl hlh in
/-- What the test of the first loop compares is known before the loop or in its header. -/
theorem Accepted.bound_early {test : StayTest} (ht : StayTest.ofLoop? f a = some test) :
    p.Early f e test.bound ∧ p.Early f e test.iv.start := by
  obtain ⟨_, _, _, hlegal⟩ := h.legal
  obtain ⟨c, t, t', hop, hc, -⟩ := h.branch_first
  rw [h.plan.first.header] at hop
  rw [StayTest.ofLoop?_eq hlegal.first.exiting hop] at ht
  obtain ⟨iv, hiv, ht⟩ := Option.bind_eq_some_iff.1 ht
  obtain ⟨stay, -, ht⟩ := Option.bind_eq_some_iff.1 ht
  obtain ⟨⟨cmp, bound⟩, hor, rfl⟩ := Option.map_eq_some_iff.1 ht
  refine ⟨?_, h.start_early hiv⟩
  obtain ⟨op, hop, hor⟩ := Option.bind_eq_some_iff.1 hor
  cases c with
  | inst j =>
    cases op with
    | compare cmp x y =>
      have hmem : bound ∈ (Operation.compare cmp x y).operands := by
        simp only [StayTest.orient?] at hor
        split_ifs at hor <;> cases hor <;> simp [Operation.operands]
      exact operand_early h.wellFormed hc hop (by simp [Operation.isPhi]) hmem
    | _ => cases hor
  | _ => cases hop

theorem Accepted.tripCount_fused {s s' : Session} (hs : s.memo = []) (hs' : s'.memo = [])
    (hle : (Describe.tripCount f f.forest a.id s).2.symbols ≤ s'.symbols) :
    (Describe.tripCount (p.fused f) (p.fused f).forest l.id s').1 =
      (Describe.tripCount f f.forest a.id s).1 := by
  have hla := LoopForest.loop?_id h.first
  have hll := LoopForest.loop?_id hl
  have hm := Describe.mirrors_tripCount (h.copies hl hlh)
    (by rw [hla, hll, Option.bind_some, Option.bind_some, h.test_fused hl hlh])
    (fun test ht => h.bound_early (by rwa [hla, Option.bind_some] at ht))
  refine (hm s s' (fun i => ?_) hle).1.symm
  rw [Session.remembered?, Session.remembered?, hs, hs']
  exact .none

end Loop

/-- What fusion does to the loops of a function, found anew: the second loop is gone, the first has
taken in its body and runs as often as it did, and all other loops are where they were. -/
theorem forest_fused (f : Func) (a b : Loop) (p : FusionPlan) (keep : Bool) (s : Session)
    (hf : f.verify = .ok ()) (ha : a ∈ f.forest.loops) (hb : b ∈ f.forest.loops)
    (hlegal : (((Checker.builtIn (.ofFunc f) keep).checkCandidate a b).verdict s).1 = .ok ())
    (hplan : ofLoops f a b = .ok p) :
    (∀ s, (p.fuse f s).1 = .ok (p.fused f)) ∧
      ∃ l, f.forest.Absorbed (p.fused f).forest a b l ∧
        ∀ s s' : Session, s.memo = [] → s'.memo = [] →
          (Describe.tripCount f f.forest a.id s).2.symbols ≤ s'.symbols →
          (Describe.tripCount (p.fused f) (p.fused f).forest l.id s').1 =
            (Describe.tripCount f f.forest a.id s).1 := by
  obtain ⟨e, h⟩ := exists_accepted hf ha hb hlegal hplan
  obtain ⟨l, hl, hlh⟩ := h.exists_loop
  exact ⟨fuse_ensures h.wellFormed h.fits, l, h.absorbed hl hlh,
    fun s s' hs hs' hle => h.tripCount_fused hl hlh hs hs' hle⟩

/-- Of two loops of four rounds one is left. -/
theorem forest_fused_twoLoops : ∃ p l, ofLoops Func.twoLoops .first .second = .ok p ∧
    Func.twoLoops.forest.Absorbed (p.fused Func.twoLoops).forest .first .second l := by
  obtain ⟨p, hp⟩ := exists_plan_twoLoops
  obtain ⟨-, l, hl, -⟩ := forest_fused Func.twoLoops .first .second p true .start
    Func.verify_twoLoops Loop.first_mem Loop.second_mem legal_twoLoops hp
  exact ⟨p, l, hp, hl⟩

end FusionPlan

end LoopFusion
