import LoopFusion.Proofs.Fusion.FusedLoops

/-!
The loop forest of the fused function: the first loop has taken in the second and stands where it
stood, and all other loops nest as they did.
-/

namespace LoopFusion

open Relation LoopFusion.Flow

namespace FusionPlan

variable {p : FusionPlan} {f : Func} {e b d h q x : BlockId} {i : InstId} {v : Value}
  {op : Operation}

section Values

variable (hw : f.WellFormed e) (hp : p.Fits f e) (hc : p.Clean f)

include hw hp hc

/-- The second counter is only known to what its header dominates. -/
theorem ne_second (hv : f.Ahead e b v) (hb : ¬ Dom f.Edge e p.second.header b) :
    v ≠ .inst p.second.iv := by
  rintro rfl
  obtain ⟨d, hd, hi, hdom⟩ := hv
  obtain rfl := hw.block_unique hd hp.second.exit_edge.1 hi hc.mem_body_second
  exact hb hdom

theorem op?_fused_of_not_dom (hb : b ∈ f.layout) (hr : f.Leads e b)
    (hn : ¬ Dom f.Edge e p.second.header b) (hi : i ∈ f.body b) (hop : f.op? i = some op)
    (hphi : ¬ op.isPhi) (ht : ¬ op.isTerminator) : (p.fused f).op? i = some op := by
  have hne : b ≠ p.second.header := by
    rintro rfl
    exact hn (.of_reach hr)
  rw [op?_fused hw hp hb hne hi, hop, Option.map_some, fusedOp_of_not_terminator ht,
    Operation.mapIncoming_of_not_phi _ (by simpa using hphi)]
  have hid : op.mapOperands p.renamed = op.mapOperands id := by
    refine Operation.mapOperands_congr fun v hv => ?_
    exact renamed_of_ne (ne_second hw hp hc (hw.ahead hb hr hi hop hphi hv) hn)
  rw [hid, Operation.mapOperands_id]

/-- A value known where the second header is not: fusion leaves its operation alone, but for the
entries of a phi. -/
theorem op?_fused_of_ahead (hn : ¬ Dom f.Edge e p.second.header b) (hi : f.Ahead e b (.inst i))
    (hres : f.hasResult i) : (p.fused f).op? i = f.op? i ∨
      ∃ old new, f.op? i = some (.phi old) ∧ (p.fused f).op? i = some (.phi new) := by
  obtain ⟨d, hd, hid, hdom⟩ := hi
  have hr := hdom.reach_left
  have hnd : ¬ Dom f.Edge e p.second.header d := fun h => hn (h.trans hdom)
  obtain ⟨op, hop⟩ := hw.known d hd i hid
  have ht : ¬ op.isTerminator := by
    intro ht
    simp [Func.hasResult, hop, Operation.hasResult, ht] at hres
  by_cases hphi : op.isPhi
  · have hne : d ≠ p.second.header := by
      rintro rfl
      exact hnd (.of_reach hr)
    cases op with
    | phi old => exact .inr ⟨old, _, hop, by rw [op?_fused hw hp hd hne hid, hop]; rfl⟩
    | _ => cases hphi
  · exact .inl ((op?_fused_of_not_dom hw hp hc hd hr hnd hid hop hphi ht).trans hop.symm)

omit hc in
theorem entry_ne_header : e ≠ p.first.header := by
  rintro rfl
  exact hw.unentered _ hp.first.latch_edge

omit hw hc in
theorem not_dom_latch : ¬ Dom f.Edge e p.second.header p.first.latch :=
  not_dom_first hp (.of_reach hp.second.reach) hp.first.latch_in

omit hw hc in
theorem not_dom_preheader : ¬ Dom f.Edge e p.second.header p.first.preheader := fun hd =>
  hp.first.not_dom_preheader (hp.dom.trans hd)

theorem phi_fused_first (hi : i ∈ f.phis p.first.header) : (p.fused f).op? i = f.op? i := by
  have hl := hp.first.exit_edge.1
  have hib := (List.takeWhile_sublist _).mem hi
  obtain ⟨old, hop⟩ := Func.exists_phi (List.mem_takeWhile_imp hi)
  obtain ⟨-, hmem, hval⟩ := hw.phis _ hl hp.first.reach i hib old hop
  have hkeep : ∀ x ∈ old, (p.relabel p.first.header x.1, p.renamed x.2) = x := by
    rintro ⟨q, v⟩ hx
    have hrel : p.relabel p.first.header q = q := by
      have hm : p.first.header ≠ p.second.bodyHead := fun h =>
        hp.apart _ hp.first.header_in (h ▸ hp.second.bodyHead_in)
      rw [relabel, if_neg hm, if_neg hp.first.latch_ne.symm, id]
    have hq := (hmem q).1 (List.mem_map_of_mem hx)
    obtain ⟨-, hav⟩ := hval q v hx
    have hne : v ≠ .inst p.second.iv := by
      rcases hp.first.preds_header.1 hq with rfl | rfl
      · exact ne_second hw hp hc (hav.ahead (hp.first.preheader_reach (entry_ne_header hw hp)))
          (not_dom_preheader hp)
      · exact ne_second hw hp hc (hav.ahead hp.first.latch_in.reach) (not_dom_latch hp)
    rw [hrel, renamed_of_ne hne]
  rw [op?_fused hw hp hl hp.header_ne hib, hop, Option.map_some]
  have : p.fusedOp p.first.header (.phi old) =
      .phi (old.map fun x => (p.relabel p.first.header x.1, p.renamed x.2)) := by
    simp [fusedOp, Operation.mapOperands, Operation.mapTargets, Operation.mapIncoming,
      Function.comp_def]
  rw [this, List.map_congr_left hkeep, List.map_id']

theorem ivOf?_fused (hi : i ∈ f.phis p.first.header) :
    Region.ivOf? (p.fused f) p.first.preheader p.first.latch i =
      Region.ivOf? f p.first.preheader p.first.latch i := by
  have hinc : (p.fused f).incoming i = f.incoming i := by
    rw [Func.incoming, Func.incoming, phi_fused_first hw hp hc hi]
  simp only [Region.ivOf?, hinc, Option.bind_eq_bind]
  refine Option.bind_congr fun _ _ => Option.bind_congr fun start _ =>
    Option.bind_congr fun v hv => Option.bind_congr fun next hnext => ?_
  obtain rfl : v = .inst next := by
    cases v with
    | inst j => exact congrArg Value.inst (Option.some.inj hnext)
    | _ => cases hnext
  have hib := (List.takeWhile_sublist _).mem hi
  have hphi : f.op? i = some (.phi (f.incoming i)) := by
    rw [Func.incoming]
    split
    · assumption
    case h_2 h =>
      rw [Func.incoming] at hv
      split at hv
      · exact absurd ‹_› (h _)
      · cases hv
  obtain ⟨-, -, hval⟩ := hw.phis _ hp.first.exit_edge.1 hp.first.reach i hib _ hphi
  obtain ⟨hu, hav⟩ := hval _ _ (mem_of_lookup hv)
  rcases op?_fused_of_ahead hw hp hc (not_dom_latch hp) (hav.ahead hp.first.latch_in.reach) hu.2
    with h | ⟨old, new, h, h'⟩
  · rw [h]
  · rw [h, h']
    rfl

end Values

section Forest

variable (hw : f.WellFormed e) (hp : p.Fits f e)

include hw hp

omit hw in
theorem header_not_retired (hh : f.InLoop e h x) (hb : h ≠ p.second.header) : h ∉ p.retired := by
  intro hr
  rcases hp.mem_retired.1 hr with rfl | rfl | rfl
  · exact preheader_not_header hp _ hh
  · exact hb rfl
  · exact hp.second.latch_not_header _ hh

omit hw in
theorem first_not_mem_body : p.first.header ∉ p.secondBody := fun hm =>
  hp.apart _ hp.first.header_in ((hp.secondBody _).1 hm).1

omit hw in
theorem header_mem_body (hh : f.InLoop e h x) (hb : h ≠ p.second.header) :
    h ∈ p.secondBody ↔ f.InLoop e p.second.header h := by
  rw [hp.secondBody]
  refine ⟨fun h => h.1, fun h => ⟨h, hb, ?_⟩⟩
  rintro rfl
  exact hp.second.latch_not_header _ hh

theorem headed_fused_iff :
    (p.fused f).InLoop e h h ↔ f.InLoop e h h ∧ h ≠ p.second.header := by
  rw [inLoop_fused_iff hw hp]
  constructor
  · rintro (⟨hh, hb, -⟩ | ⟨rfl, hm⟩)
    · exact ⟨hh, hb⟩
    · exact absurd hm (first_not_mem_body hp)
  · rintro ⟨hh, hb⟩
    exact .inl ⟨hh, hb, header_not_retired hp hh hb⟩

/-- The loops around a header: the first loop stands for the second. -/
theorem inLoop_header_iff (hh : f.InLoop e h h) (hb : h ≠ p.second.header) :
    (p.fused f).InLoop e q h ↔ f.InLoop e q h ∧ q ≠ p.second.header ∨
      q = p.first.header ∧ f.InLoop e p.second.header h := by
  rw [inLoop_fused_iff hw hp, header_mem_body hp hh hb]
  simp [header_not_retired hp hh hb]

theorem parent_first_iff (hh : f.InLoop e h h) (hb : h ≠ p.second.header) :
    (p.fused f).Parent e p.first.header h ↔
      f.Parent e p.first.header h ∨ f.Parent e p.second.header h := by
  have hself : ∀ q, (p.fused f).InLoop e q p.first.header ↔
      f.InLoop e q p.first.header ∧ q ≠ p.second.header := by
    intro q
    rw [inLoop_header_iff hw hp hp.first.header_in hp.header_ne]
    simp [hp.apart _ hp.first.header_in]
  constructor
  · rintro ⟨hne, hin, hleast⟩
    rcases (inLoop_header_iff hw hp hh hb).1 hin with ⟨hin, -⟩ | ⟨-, hin⟩
    · refine .inl ⟨hne, hin, fun q hq hqh => ?_⟩
      have hqb : q ≠ p.second.header := by
        rintro rfl
        exact hp.apart _ hin hq
      exact ((hself q).1 (hleast q ((inLoop_header_iff hw hp hh hb).2 (.inl ⟨hq, hqb⟩)) hqh)).1
    · refine .inr ⟨hb.symm, hin, fun q hq hqh => ?_⟩
      by_cases hqb : q = p.second.header
      · subst q
        exact hp.second.header_in
      have hqa : q ≠ p.first.header := by
        rintro rfl
        exact hp.apart _ hq hin
      have := hleast q ((inLoop_header_iff hw hp hh hb).2 (.inl ⟨hq, hqb⟩)) hqh
      exact (hp.siblings q hqa hqb).1 ((hself q).1 this).1
  · rintro (⟨hne, hin, hleast⟩ | ⟨hne, hin, hleast⟩)
    · refine ⟨hne, (inLoop_header_iff hw hp hh hb).2 (.inl ⟨hin, hp.header_ne⟩), fun q hq hqh => ?_⟩
      rcases (inLoop_header_iff hw hp hh hb).1 hq with ⟨hq, hqb⟩ | ⟨rfl, hb'⟩
      · exact (hself q).2 ⟨hleast q hq hqh, hqb⟩
      · exact absurd hb' (hp.apart _ hin)
    · have hne' : p.first.header ≠ h := by
        rintro rfl
        exact hp.apart _ hp.first.header_in hin
      refine ⟨hne', (inLoop_header_iff hw hp hh hb).2 (.inr ⟨rfl, hin⟩), fun q hq hqh => ?_⟩
      rcases (inLoop_header_iff hw hp hh hb).1 hq with ⟨hq, hqb⟩ | ⟨rfl, -⟩
      · have hqa : q ≠ p.first.header := by
          rintro rfl
          exact hp.apart _ hq hin
        exact (hself q).2 ⟨(hp.siblings q hqa hqb).2 (hleast q hq hqh), hqb⟩
      · exact (hself _).2 ⟨hp.first.header_in, hp.header_ne⟩

theorem length_around_fused (hf' : (p.fused f).InArena) (hh : f.InLoop e h h)
    (hb : h ≠ p.second.header) :
    (LoopForest.around (p.fused f) h).length = (LoopForest.around f h).length := by
  have hf := hw.inArena
  have he := hw.entry
  have he' := entry_fused hw hp
  have hinj : ((LoopForest.around f h).map (replace p.second.header p.first.header)).Nodup := by
    refine (LoopForest.nodup_around hf he).map_on fun q hq r hr hqr => ?_
    have hq := (LoopForest.mem_around hf he).1 hq
    have hr := (LoopForest.mem_around hf he).1 hr
    rw [replace, replace] at hqr
    split_ifs at hqr with h₁ h₂ h₂
    · rw [h₁, h₂]
    · exact absurd (h₁ ▸ hq) (hp.apart _ (hqr ▸ hr))
    · exact absurd (h₂ ▸ hr) (hp.apart _ (hqr ▸ hq))
    · exact hqr
  have hperm : (LoopForest.around (p.fused f) h).Perm
      ((LoopForest.around f h).map (replace p.second.header p.first.header)) := by
    refine (List.perm_ext_iff_of_nodup (LoopForest.nodup_around hf' he') hinj).2 fun q => ?_
    rw [LoopForest.mem_around hf' he', inLoop_header_iff hw hp hh hb, List.mem_map]
    simp only [LoopForest.mem_around hf he]
    constructor
    · rintro (⟨hq, hqb⟩ | ⟨rfl, hq⟩)
      · exact ⟨q, hq, if_neg hqb⟩
      · exact ⟨_, hq, if_pos rfl⟩
    · rintro ⟨r, hr, rfl⟩
      by_cases hrb : r = p.second.header
      · subst r
        exact .inr ⟨if_pos rfl, hr⟩
      · rw [replace, if_neg hrb]
        exact .inl ⟨hr, hrb⟩
  rw [hperm.length_eq, List.length_map]

omit hw in
theorem preheader_not_retired : p.first.preheader ∉ p.retired := fun hm =>
  hp.first.not_dom_preheader (hp.dom_of_inside (hp.inside_of_retired hm))

theorem edge_header_fused_iff : (p.fused f).Edge q p.first.header ↔ f.Edge q p.first.header := by
  have h₁ : p.first.header ≠ p.second.exit := fun he => hp.exit_out (he ▸ hp.first.header_in)
  have h₂ : p.first.header ≠ p.second.bodyHead := fun he =>
    hp.apart _ hp.first.header_in (he ▸ hp.second.bodyHead_in)
  rw [edge_fused_iff hw hp]
  simp only [h₁, h₂, hp.first.latch_ne.symm, hp.not_retired_first hp.first.header_in, and_false,
    false_or, not_false_eq_true, ne_eq, and_true, and_iff_left_iff_imp]
  rintro hq hqr
  rcases hp.first.preds_header.1 hq with rfl | rfl
  · exact preheader_not_retired hp hqr
  · exact hp.not_retired_first hp.first.latch_in hqr

theorem successors_preheader_fused :
    (p.fused f).successors p.first.preheader = f.successors p.first.preheader := by
  have hhr := hp.not_retired_first hp.first.header_in
  have hlay := hp.first.preheader_edge.1
  have hne : p.first.preheader ≠ p.second.header := fun he =>
    preheader_not_retired hp (hp.mem_retired.2 (.inr (.inl he)))
  have hkeep : ∀ t ∈ f.successors p.first.preheader, p.retarget p.first.preheader t = t := by
    intro t ht
    obtain rfl := (hp.first.leads t).1 ⟨hlay, ht⟩
    have h₁ : p.first.header ≠ p.second.preheader := fun he => hhr (hp.mem_retired.2 (.inl he))
    have h₂ : p.first.header ≠ p.second.latch := fun he => hhr (hp.mem_retired.2 (.inr (.inr he)))
    exact retarget_eq_self (fun _ => h₁) (fun _ => hp.first.latch_ne.symm) fun _ => h₂
  rw [successors_fused hw hp hlay hne, List.map_congr_left hkeep, List.map_id']

end Forest

end FusionPlan

/-- The forest `t'` is `t` with the loop `b` taken into the loop `a`, which is `l` in `t'`. -/
structure LoopForest.Absorbed (t t' : LoopForest) (a b l : Loop) : Prop where
  mem : l ∈ t'.loops
  headers : (t'.loops.map (·.header)).Perm ((t.loops.map (·.header)).erase b.header)
  header : l.header = a.header
  blocks : l.blocks.Perm (a.blocks ++ b.bodyBlocks)
  preheader : ∃ x, l.preheader? = some x ∧ a.preheader? = some x
  latch : ∃ x, l.latches = [x] ∧ a.latches = [x]
  counter : ∃ iv, l.iv? = some iv ∧ a.iv? = some iv
  exiting : l.exiting = [l.header]
  exits : ∃ x, l.exits = [x] ∧ b.exits = [x]
  depth : t'.depth l.id = t.depth a.id
  children : ∀ h, (∃ c ∈ t'.loops, c.id ∈ t'.children l.id ∧ c.header = h) ↔
    ∃ c ∈ t.loops, (c.id ∈ t.children a.id ∨ c.id ∈ t.children b.id) ∧ c.header = h
  others : ∀ m ∈ t.loops, m.header ≠ b.header →
    ∃ m' ∈ t'.loops, m'.header = m.header ∧ t'.depth m'.id = t.depth m.id

namespace FusionPlan

variable {p : FusionPlan} {f : Func} {e x : BlockId} {a b l : Loop}

section Loop

variable (h : p.Accepted f e a b)

include h

theorem Accepted.inArena_fused : (p.fused f).InArena :=
  (wellFormed_fused h.wellFormed h.fits h.clean).inArena

theorem Accepted.exists_loop : ∃ l ∈ (p.fused f).forest.loops, l.header = p.first.header :=
  LoopForest.exists_loop h.inArena_fused (entry_fused h.wellFormed h.fits)
    ((headed_fused_iff h.wellFormed h.fits).2 ⟨h.fits.first.header_in, h.fits.header_ne⟩)

theorem Accepted.leave_iff {y : BlockId} (hx : p.Merged f e x) :
    (p.fused f).Edge x y ∧ ¬ p.Merged f e y ↔ x = p.first.header ∧ y = p.second.exit := by
  have hw := h.wellFormed
  have hp := h.fits
  have hout : ¬ p.Merged f e p.second.exit := fun hm => hp.exit_outside (hp.merged_iff.1 hm).1
  constructor
  · rintro ⟨hxy, hy⟩
    rcases (edge_fused_iff hw hp).1 hxy with ⟨rfl, rfl⟩ | ⟨rfl, rfl⟩ | ⟨rfl, rfl⟩ | ⟨hr, rfl⟩ |
      ⟨hedge, hxr, hyr, -⟩
    · exact ⟨rfl, rfl⟩
    · exact absurd (.inr hp.bodyHead_mem) hy
    · exact absurd (.inl hp.first.latch_in) hy
    · have hlead : f.Leads e x := by
        rcases hx with hx | hx
        · exact hx.reach
        · exact ((hp.secondBody x).1 hx).1.reach
      exact absurd hr (hp.not_redirected_of_reach hlead)
    · have hin := (hp.merged_iff.1 hx).1
      have hn : ¬ p.Inside f e y := fun hyi => hy (hp.merged_iff.2 ⟨hyi, hyr⟩)
      obtain ⟨rfl, -⟩ := hp.leave_inside hin hedge hn
      exact absurd (hp.mem_retired.2 (.inr (.inl rfl))) hxr
  · rintro ⟨rfl, rfl⟩
    exact ⟨edge_exit hw hp, hout⟩

/-! The loop `l` that the first one has become. -/

variable (hl : l ∈ (p.fused f).forest.loops) (hlh : l.header = p.first.header)

include hlh

theorem Accepted.inLoop_iff :
    (p.fused f).InLoop e l.header x ↔ p.Merged f e x := by
  rw [hlh, inLoop_fused_iff h.wellFormed h.fits, Merged]
  constructor
  · rintro (⟨hx, -, -⟩ | ⟨-, hx⟩)
    · exact .inl hx
    · exact .inr hx
  · rintro (hx | hx)
    · exact .inl ⟨hx, h.fits.header_ne, h.fits.not_retired_first hx⟩
    · exact .inr ⟨rfl, hx⟩

include hl

omit hlh in
theorem Accepted.region_is : l.region.Is (p.fused f) e :=
  LoopForest.region_is h.inArena_fused (entry_fused h.wellFormed h.fits) hl

theorem Accepted.blocks_fused : l.blocks.Perm (a.blocks ++ b.bodyBlocks) := by
  have hr := h.region_is hl
  have hra := LoopForest.region_is h.wellFormed.inArena h.wellFormed.entry h.first
  have hmem : ∀ x, x ∈ l.blocks ↔ f.InLoop e p.first.header x ∨ x ∈ p.secondBody := fun x =>
    (hr.blocks x).trans (h.inLoop_iff hlh)
  have hina : ∀ x, x ∈ a.blocks ↔ f.InLoop e p.first.header x := fun x => by
    rw [h.plan.first.header]
    exact hra.blocks x
  have hn : l.blocks.Nodup := hr.nodup
  refine (List.perm_ext_iff_of_nodup hn ?_).2 fun x => ?_
  · rw [← h.plan.secondBody]
    refine List.Nodup.append hra.nodup h.fits.nodupBody fun x hx hx' => ?_
    exact h.fits.apart x ((hina x).1 hx) ((h.fits.secondBody x).1 hx').1
  · rw [hmem, List.mem_append, hina, h.plan.secondBody]

theorem Accepted.latches_fused : l.latches = [p.first.latch] := by
  have hr := h.region_is hl
  have hn : l.latches.Nodup := hr.nodupLatches
  rw [← only?_eq_some, only?_eq_some_iff_mem hn]
  intro x
  have := hr.latches x
  change x ∈ l.latches ↔ (p.fused f).Back e x l.header at this
  have hout : p.first.header ≠ p.second.exit := fun he =>
    h.fits.exit_out (he ▸ h.fits.first.header_in)
  rw [this, hlh, back_fused_iff h.wellFormed h.fits, h.fits.first.back]
  constructor
  · rintro (⟨rfl, -, -⟩ | ⟨-, he, -⟩)
    · rfl
    · exact absurd he hout
  · rintro rfl
    exact .inl ⟨rfl, h.fits.not_retired_first h.fits.first.latch_in,
      h.fits.not_retired_first h.fits.first.header_in⟩

theorem Accepted.exiting_fused : l.exiting = [l.header] := by
  have hr := h.region_is hl
  rw [LoopForest.exiting_eq hl, ← only?_eq_some,
    only?_eq_some_iff_mem (Region.nodup_exiting hr _)]
  intro x
  rw [Region.mem_exiting hr]
  change (p.fused f).InLoop e l.header x ∧ (∃ s, _ ∧ ¬ (p.fused f).InLoop e l.header s) ↔ _
  simp only [h.inLoop_iff hlh]
  constructor
  · rintro ⟨hx, y, hxy⟩
    exact ((h.leave_iff hx).1 hxy).1.trans hlh.symm
  · rintro rfl
    have hin : p.Merged f e l.header := .inl (hlh ▸ h.fits.first.header_in)
    exact ⟨hin, p.second.exit, (h.leave_iff hin).2 ⟨hlh, rfl⟩⟩

theorem Accepted.exits_fused : l.exits = [p.second.exit] := by
  have hr := h.region_is hl
  rw [LoopForest.exits_eq hl, ← only?_eq_some, only?_eq_some_iff_mem (Region.nodup_exits _ _)]
  intro x
  rw [Region.mem_exits hr]
  change ¬ (p.fused f).InLoop e l.header x ∧ (∃ y, (p.fused f).InLoop e l.header y ∧ _) ↔ _
  simp only [h.inLoop_iff hlh]
  constructor
  · rintro ⟨hx, y, hy, hyx⟩
    exact ((h.leave_iff hy).1 ⟨hyx, hx⟩).2
  · rintro rfl
    have hin : p.Merged f e p.first.header := .inl h.fits.first.header_in
    have := (h.leave_iff hin).2 ⟨rfl, rfl⟩
    exact ⟨this.2, _, hin, this.1⟩

theorem Accepted.preheader_fused : l.preheader? = some p.first.preheader := by
  have hw := h.wellFormed
  have hp := h.fits
  have hpre := h.plan.first.preheader
  have hra := LoopForest.region_is hw.inArena hw.entry h.first
  rw [LoopForest.preheader?_eq h.first, Region.preheader?_eq_some hra hw.inArena] at hpre
  rw [LoopForest.preheader?_eq hl, Region.preheader?_eq_some (h.region_is hl) h.inArena_fused]
  constructor
  · intro q
    change (p.fused f).Edge q l.header ∧ ¬ (p.fused f).InLoop e l.header q ↔ _
    rw [h.inLoop_iff hlh, hlh, edge_header_fused_iff hw hp, ← hp.first.enter]
    refine and_congr_right fun hq => not_congr ⟨?_, .inl⟩
    rintro (hm | hm)
    · exact hm
    · obtain ⟨hin, -, hnl⟩ := (hp.secondBody q).1 hm
      rcases hp.first.preds_header.1 hq with rfl | rfl
      · exact absurd (hp.dom_of_inside (.inr (.inr hin))) hp.first.not_dom_preheader
      · exact hp.first.latch_in
  · change _ = [l.header]
    have hsuccs := hpre.2
    change _ = [a.header] at hsuccs
    have hlay := hp.first.preheader_edge.1
    rw [Cfg.succs_ofFunc, if_pos hlay] at hsuccs
    rw [Cfg.succs_ofFunc, if_pos ((mem_layout_fused hw hp).2 ⟨hlay, preheader_not_retired hp⟩),
      successors_preheader_fused hw hp, hsuccs, hlh, h.plan.first.header]

theorem Accepted.counter_fused : l.iv? = a.iv? := by
  have hlatch : l.latch? = some p.first.latch := by
    rw [Loop.latch?, h.latches_fused hl hlh]
    rfl
  rw [LoopForest.iv?_eq hl (h.preheader_fused hl hlh) hlatch,
    LoopForest.iv?_eq h.first h.plan.first.preheader h.plan.first.latch, hlh,
    ← h.plan.first.header]
  have hphis : (p.fused f).phis p.first.header = f.phis p.first.header := by
    rw [Func.phis, Func.phis, body_fused h.wellFormed h.fits,
      funext (isPhi_fused h.wellFormed h.fits)]
  rw [hphis]
  have key : ∀ is : List InstId, (∀ i ∈ is, i ∈ f.phis p.first.header) →
      is.findSome? (Region.ivOf? (p.fused f) p.first.preheader p.first.latch) =
        is.findSome? (Region.ivOf? f p.first.preheader p.first.latch) := by
    intro is his
    induction is with
    | nil => rfl
    | cons i is ih =>
      obtain ⟨hi, his⟩ := List.forall_mem_cons.1 his
      rw [List.findSome?_cons, List.findSome?_cons,
        ivOf?_fused h.wellFormed h.fits h.clean hi, ih his]
  exact key _ fun i hi => hi

omit hl hlh in
theorem Accepted.depth_fused {m m' : Loop} (hm : m ∈ f.forest.loops)
    (hm' : m' ∈ (p.fused f).forest.loops) (hmm : m'.header = m.header)
    (hne : m.header ≠ p.second.header) :
    (p.fused f).forest.depth m'.id = f.forest.depth m.id := by
  have hw := h.wellFormed
  have hf := hw.inArena
  rw [LoopForest.depth_eq h.inArena_fused (entry_fused hw h.fits) hm',
    LoopForest.depth_eq hf hw.entry hm, hmm,
    length_around_fused hw h.fits h.inArena_fused (LoopForest.headed hf hw.entry hm) hne]

theorem Accepted.children_fused (q : BlockId) :
    (∃ c ∈ (p.fused f).forest.loops, c.id ∈ (p.fused f).forest.children l.id ∧ c.header = q) ↔
      ∃ c ∈ f.forest.loops,
        (c.id ∈ f.forest.children a.id ∨ c.id ∈ f.forest.children b.id) ∧ c.header = q := by
  have hw := h.wellFormed
  have hp := h.fits
  have hchild := fun {l} => LoopForest.exists_child_iff (l := l) (h := q) hw.inArena hw.entry
  have hsplit : (∃ c ∈ f.forest.loops,
      (c.id ∈ f.forest.children a.id ∨ c.id ∈ f.forest.children b.id) ∧ c.header = q) ↔
      f.InLoop e q q ∧ (f.Parent e p.first.header q ∨ f.Parent e p.second.header q) := by
    rw [h.plan.first.header, h.plan.second.header, and_or_left, ← hchild h.first,
      ← hchild h.second]
    simp only [or_and_right, and_or_left, exists_or]
  rw [LoopForest.exists_child_iff h.inArena_fused (entry_fused hw hp) hl, hlh, hsplit,
    headed_fused_iff hw hp]
  constructor
  · rintro ⟨⟨hq, hqb⟩, hpar⟩
    exact ⟨hq, (parent_first_iff hw hp hq hqb).1 hpar⟩
  · rintro ⟨hq, hpar⟩
    have hqb : q ≠ p.second.header := by
      rintro rfl
      rcases hpar with hpar | hpar
      · exact hp.apart _ hpar.holds hp.second.header_in
      · exact hpar.ne rfl
    exact ⟨⟨hq, hqb⟩, (parent_first_iff hw hp hq hqb).2 hpar⟩

/-- The forest of the fused function. -/
theorem Accepted.absorbed : f.forest.Absorbed (p.fused f).forest a b l := by
  have hw := h.wellFormed
  have hp := h.fits
  have hf := hw.inArena
  have he := hw.entry
  have hf' := h.inArena_fused
  have he' := entry_fused hw hp
  exact {
    mem := hl
    headers := by
      have hn := LoopForest.nodup_headers hf he
      refine (List.perm_ext_iff_of_nodup (LoopForest.nodup_headers hf' he') (hn.erase _)).2
        fun q => ?_
      rw [LoopForest.mem_headers hf' he', headed_fused_iff hw hp, hn.mem_erase_iff,
        LoopForest.mem_headers hf he, h.plan.second.header, and_comm]
    header := hlh.trans h.plan.first.header
    blocks := h.blocks_fused hl hlh
    preheader := ⟨_, h.preheader_fused hl hlh, h.plan.first.preheader⟩
    latch := ⟨_, h.latches_fused hl hlh, only?_eq_some.1 h.plan.first.latch⟩
    counter := by
      obtain ⟨iv, hiv, -⟩ := h.counter_first
      exact ⟨iv, (h.counter_fused hl hlh).trans hiv, hiv⟩
    exiting := h.exiting_fused hl hlh
    exits := ⟨_, h.exits_fused hl hlh, only?_eq_some.1 h.plan.second.exit⟩
    depth := h.depth_fused h.first hl (hlh.trans h.plan.first.header)
      (h.plan.first.header ▸ hp.header_ne)
    children := h.children_fused hl hlh
    others := by
      intro m hm hne
      rw [← h.plan.second.header] at hne
      have hself := LoopForest.headed hf he hm
      obtain ⟨m', hm', hmm⟩ := LoopForest.exists_loop hf' he'
        ((headed_fused_iff hw hp).2 ⟨hself, hne⟩)
      exact ⟨m', hm', hmm, h.depth_fused hm hm' hmm hne⟩ }

end Loop

end FusionPlan

end LoopFusion
