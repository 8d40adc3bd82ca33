import LoopFusion.Proofs.Flow.Loops

/-!
How the loops of a function nest: a loop's parent is the least natural loop around it, and its depth
is the number of natural loops that hold its header.
-/

namespace LoopFusion

open Relation LoopFusion.Flow

def Func.forest (f : Func) : LoopForest := (FlowFacts.ofFunc f).loops

abbrev Func.regions (f : Func) : List Region :=
  Region.all f (Cfg.ofFunc f) (.ofCfg (Cfg.ofFunc f))

/-- The blocks and back edges of a loop. -/
def Loop.region (l : Loop) : Region := ⟨l.header, l.latches, l.blocks⟩

/-- Among the loops around that of `h`, the loop of `p` is the innermost. -/
structure Func.Parent (f : Func) (e p h : BlockId) : Prop where
  ne : p ≠ h
  holds : f.InLoop e p h
  least : ∀ q, f.InLoop e q h → q ≠ h → f.InLoop e q p

namespace LoopForest

variable {f : Func} {e b h : BlockId} {l p : Loop}

theorem loops_getElem? (i : Nat) : f.forest.loops[i]? =
    (f.regions[i]?).map fun r => .ofRegion f (Cfg.ofFunc f) f.regions r i := by
  change (f.regions.zipIdx.map fun x => Loop.ofRegion f (Cfg.ofFunc f) f.regions x.1 x.2)[i]? = _
  rw [List.getElem?_map, List.getElem?_zipIdx]
  cases f.regions[i]? <;> simp

theorem mem_loops_iff : l ∈ f.forest.loops ↔
    ∃ i r, f.regions[i]? = some r ∧ l = .ofRegion f (Cfg.ofFunc f) f.regions r i := by
  rw [List.mem_iff_getElem?]
  refine exists_congr fun i => ?_
  rw [loops_getElem?, Option.map_eq_some_iff]
  simp only [eq_comm]

theorem blocks_subset (hl : l ∈ f.forest.loops) (hb : b ∈ l.blocks) : b ∈ f.layout := by
  obtain ⟨i, r, hr, rfl⟩ := mem_loops_iff.1 hl
  obtain ⟨h, -, hh⟩ := List.mem_filterMap.1 (List.mem_of_getElem? hr)
  rw [Region.ofHeader?] at hh
  obtain ⟨-, hh⟩ := Option.ite_none_left_eq_some.1 hh
  obtain rfl := Option.some.inj hh
  exact Region.mem_lineUp.1 (List.mem_filter.1 hb).1

theorem region_getElem? (hl : l ∈ f.forest.loops) : f.regions[l.id.index]? = some l.region := by
  obtain ⟨i, r, hr, rfl⟩ := mem_loops_iff.1 hl
  exact hr

theorem blocks_eq_filter (hn : f.layout.Nodup) (hl : l ∈ f.forest.loops) :
    l.blocks = f.layout.filter l.contains := by
  obtain ⟨h, -, hr⟩ := List.mem_filterMap.1 (List.mem_of_getElem? (region_getElem? hl))
  rw [Region.ofHeader?] at hr
  split at hr
  · cases hr
  have hblocks := congrArg Region.blocks (Option.some.inj hr)
  change _ = l.blocks at hblocks
  have hcontains : l.contains = fun x => l.blocks.contains x := rfl
  rw [hcontains, ← hblocks, Region.lineUp_eq_self hn, filter_contains_filter]

theorem bodyBlocks_eq_filter (hn : f.layout.Nodup) (hl : l ∈ f.forest.loops) :
    l.bodyBlocks = f.layout.filter fun x => l.bodyBlocks.contains x := by
  rw [Loop.bodyBlocks, blocks_eq_filter hn hl, List.filter_filter, filter_contains_filter]

theorem eq_ofRegion (hl : l ∈ f.forest.loops) :
    l = .ofRegion f (Cfg.ofFunc f) f.regions l.region l.id.index := by
  obtain ⟨i, r, hr, rfl⟩ := mem_loops_iff.1 hl
  rfl

theorem loop?_id (hl : l ∈ f.forest.loops) : f.forest.loop? l.id = some l := by
  rw [loop?, loops_getElem?, region_getElem? hl, Option.map_some, ← eq_ofRegion hl]

theorem mem_of_loop? {i : LoopId} (h : f.forest.loop? i = some l) :
    l ∈ f.forest.loops ∧ l.id = i := by
  have hm := List.mem_of_getElem? h
  refine ⟨hm, ?_⟩
  rw [loop?, loops_getElem?, Option.map_eq_some_iff] at h
  obtain ⟨r, -, rfl⟩ := h
  rfl

theorem eq_of_id (hl : l ∈ f.forest.loops) (hp : p ∈ f.forest.loops) (h : l.id = p.id) : l = p :=
  Option.some.inj ((loop?_id hl).symm.trans ((congrArg _ h).trans (loop?_id hp)))

theorem preheader?_eq (hl : l ∈ f.forest.loops) :
    l.preheader? = l.region.preheader? (Cfg.ofFunc f) := congrArg Loop.preheader? (eq_ofRegion hl)

theorem exits_eq (hl : l ∈ f.forest.loops) : l.exits = l.region.exits (Cfg.ofFunc f) :=
  congrArg Loop.exits (eq_ofRegion hl)

theorem nonLatchExits_eq (hl : l ∈ f.forest.loops) :
    l.nonLatchExits = l.region.nonLatchExits (Cfg.ofFunc f) :=
  congrArg Loop.nonLatchExits (eq_ofRegion hl)

theorem exiting_eq (hl : l ∈ f.forest.loops) : l.exiting = l.region.exiting (Cfg.ofFunc f) :=
  congrArg Loop.exiting (eq_ofRegion hl)

theorem guard?_eq (hl : l ∈ f.forest.loops) :
    l.guard? = l.preheader?.bind (l.region.guard? f (Cfg.ofFunc f)) := by
  rw [preheader?_eq hl]
  exact congrArg Loop.guard? (eq_ofRegion hl)

theorem parent?_eq (hl : l ∈ f.forest.loops) :
    l.parent? = Region.parent? f.regions l.id.index l.region :=
  congrArg Loop.parent? (eq_ofRegion hl)

theorem loops_eq_nil (he : f.entry? = none) : f.forest.loops = [] := by
  have hr : f.regions = [] := by
    rw [Func.regions, Region.all, Cfg.order_eq_nil he, List.filterMap_nil]
  refine List.eq_nil_iff_forall_not_mem.2 fun l hl => ?_
  obtain ⟨i, r, hi, -⟩ := mem_loops_iff.1 hl
  rw [hr] at hi
  cases hi

theorem headers_sublist (f : Func) :
    (f.forest.loops.map (·.header)).Sublist (Cfg.ofFunc f).order := by
  have : f.forest.loops.map (·.header) = f.regions.map Region.header := by
    refine List.ext_getElem? fun i => ?_
    rw [List.getElem?_map, loops_getElem?, List.getElem?_map, Option.map_map]
    rfl
  rw [this]
  exact Region.headers_sublist f _ _

variable (hf : f.InArena) (he : f.entry? = some e)

include hf he

theorem region_is (hl : l ∈ f.forest.loops) : l.region.Is f e :=
  Region.is_of_mem_all hf he (List.mem_of_getElem? (region_getElem? hl))

theorem headed (hl : l ∈ f.forest.loops) : f.InLoop e l.header l.header :=
  (region_is hf he hl).headed

theorem contains_iff (hl : l ∈ f.forest.loops) : l.contains b ↔ f.InLoop e l.header b :=
  Region.contains_iff (region_is hf he hl)

theorem exists_loop (hh : f.InLoop e h h) : ∃ l ∈ f.forest.loops, l.header = h := by
  obtain ⟨r, hr, rfl⟩ := Region.exists_mem_all hf he hh
  obtain ⟨i, hi⟩ := List.mem_iff_getElem?.1 hr
  exact ⟨_, mem_loops_iff.2 ⟨i, r, hi, rfl⟩, rfl⟩

theorem eq_of_header (hl : l ∈ f.forest.loops) (hp : p ∈ f.forest.loops)
    (h : l.header = p.header) : l = p := by
  refine eq_of_id hl hp ?_
  have hn := Region.nodup_headers hf he
  have hget : ∀ {q : Loop}, q ∈ f.forest.loops →
      (f.regions.map Region.header)[q.id.index]? = some q.header := by
    intro q hq
    rw [List.getElem?_map, region_getElem? hq]
    rfl
  have hlt := (List.getElem?_eq_some_iff.1 (hget hl)).1
  have := (List.getElem?_inj hlt hn).1 ((hget hl).trans (h ▸ (hget hp).symm))
  exact congrArg LoopId.mk this

/-- The headers of the loops that hold a block. -/
def around (f : Func) (b : BlockId) : List BlockId :=
  (f.forest.loops.filter (·.contains b)).map (·.header)

theorem mem_around : h ∈ around f b ↔ f.InLoop e h b := by
  simp only [around, List.mem_map, List.mem_filter]
  constructor
  · rintro ⟨l, ⟨hl, hb⟩, rfl⟩
    exact (contains_iff hf he hl).1 hb
  · intro h
    obtain ⟨l, hl, rfl⟩ := exists_loop hf he h.header
    exact ⟨l, ⟨hl, (contains_iff hf he hl).2 h⟩, rfl⟩

theorem nodup_headers : (f.forest.loops.map (·.header)).Nodup :=
  (headers_sublist f).nodup (Cfg.nodup_order hf he)

theorem mem_headers : h ∈ f.forest.loops.map (·.header) ↔ f.InLoop e h h := by
  rw [List.mem_map]
  constructor
  · rintro ⟨l, hl, rfl⟩
    exact headed hf he hl
  · exact exists_loop hf he

theorem nodup_around : (around f b).Nodup :=
  (List.filter_sublist.map _).nodup (nodup_headers hf he)

omit hf he in
theorem inLoop_of_length_le {r s : Region} (hr : r.Is f e) (hs : s.Is f e)
    (hbr : f.InLoop e r.header b) (hbs : f.InLoop e s.header b)
    (hle : r.blocks.length ≤ s.blocks.length) : f.InLoop e s.header r.header := by
  rcases hbs.nested hbr with h | h
  · exact h
  · have hsub : s.blocks ⊆ r.blocks := fun x hx => (hr.blocks x).2 (h.trans ((hs.blocks x).1 hx))
    have hperm := (hs.nodup.subperm hsub).perm_of_length_le hle
    exact (hs.blocks _).1 (hperm.mem_iff.2 ((hr.blocks _).2 hbr.header))

theorem exists_parent {i : LoopId} (hl : l ∈ f.forest.loops) (h : l.parent? = some i) :
    ∃ p ∈ f.forest.loops, p.id = i ∧ f.Parent e p.header l.header := by
  rw [parent?_eq hl, Region.parent?, Region.smallest?, Option.map_eq_some_iff] at h
  obtain ⟨⟨r, j⟩, hmin, rfl⟩ := h
  obtain ⟨hr, hcond⟩ := List.mem_filter.1 (List.minOn?_mem hmin)
  rw [List.mem_zipIdx_iff_getElem?] at hr
  simp only [ne_eq, decide_not, Bool.and_eq_true, Bool.not_eq_true', decide_eq_false_iff_not] at hcond
  have his := Region.is_of_mem_all hf he (List.mem_of_getElem? hr)
  have hin : f.InLoop e r.header l.header := (Region.contains_iff his).1 hcond.2
  refine ⟨_, mem_loops_iff.2 ⟨j, r, hr, rfl⟩, rfl, ?_, hin, fun q hq hne => ?_⟩
  · intro heq
    have hp := mem_loops_iff.2 ⟨j, r, hr, rfl⟩
    have := eq_of_header hf he hl hp heq.symm
    exact hcond.1 (congrArg (fun m : Loop => m.id.index) this).symm
  · obtain ⟨q, hql, rfl⟩ := exists_loop hf he hq.header
    have hqi : q.id.index ≠ l.id.index := by
      intro heq
      exact hne (eq_of_id hql hl (congrArg LoopId.mk heq) ▸ rfl)
    have hqis := region_is hf he hql
    have hle := minOn?_le hmin (x := (q.region, q.id.index)) (by
      rw [List.mem_filter, List.mem_zipIdx_iff_getElem?]
      have hc : q.region.contains l.region.header := (Region.contains_iff hqis).2 hq
      exact ⟨region_getElem? hql, by simp [hqi, hc]⟩)
    exact inLoop_of_length_le his hqis hin hq hle

theorem parent?_eq_none_iff (hl : l ∈ f.forest.loops) :
    l.parent? = none ↔ ∀ q, f.InLoop e q l.header → q = l.header := by
  constructor
  · intro h q hq
    by_contra hne
    obtain ⟨q, hql, rfl⟩ := exists_loop hf he hq.header
    have hqi : q.id.index ≠ l.id.index := by
      intro heq
      exact hne (eq_of_id hql hl (congrArg LoopId.mk heq) ▸ rfl)
    have hc : q.region.contains l.region.header :=
      (Region.contains_iff (region_is hf he hql)).2 hq
    rw [parent?_eq hl, Region.parent?, Region.smallest?, Option.map_eq_none_iff] at h
    refine absurd (List.isSome_minOn?_of_mem (x := (q.region, q.id.index)) ?_) (by rw [h]; simp)
    rw [List.mem_filter, List.mem_zipIdx_iff_getElem?]
    exact ⟨region_getElem? hql, by simp [hqi, hc]⟩
  · intro h
    cases hp : l.parent? with
    | none => rfl
    | some i =>
      obtain ⟨p, -, -, hpar⟩ := exists_parent hf he hl hp
      exact absurd (h _ hpar.holds) hpar.ne

theorem parent?_eq_some_iff (hl : l ∈ f.forest.loops) (hp : p ∈ f.forest.loops) :
    l.parent? = some p.id ↔ f.Parent e p.header l.header := by
  constructor
  · intro h
    obtain ⟨q, hq, hid, hpar⟩ := exists_parent hf he hl h
    exact eq_of_id hq hp hid ▸ hpar
  · intro h
    cases hq : l.parent? with
    | none => exact absurd ((parent?_eq_none_iff hf he hl).1 hq _ h.holds) h.ne
    | some i =>
      obtain ⟨q, hql, rfl, hpar⟩ := exists_parent hf he hl hq
      have := (h.least _ hpar.holds hpar.ne).antisymm (hpar.least _ h.holds h.ne)
      rw [eq_of_header hf he hql hp this]

/-- A loop around its sibling would be around itself. -/
theorem not_inLoop_sibling (hl : l ∈ f.forest.loops) (hp : p ∈ f.forest.loops)
    (hpar : l.parent? = p.parent?) (hne : l ≠ p) : ¬ f.InLoop e p.header l.header := by
  intro hin
  have hh : p.header ≠ l.header := fun h => hne (eq_of_header hf he hl hp h.symm)
  cases hm : l.parent? with
  | none => exact hh ((parent?_eq_none_iff hf he hl).1 hm _ hin)
  | some i =>
    obtain ⟨m, hml, rfl, h₁⟩ := exists_parent hf he hl hm
    have h₂ := (parent?_eq_some_iff hf he hp hml).1 (hpar ▸ hm)
    exact h₂.ne (h₂.holds.antisymm (h₁.least _ hin hh))

theorem disjoint_siblings (hl : l ∈ f.forest.loops) (hp : p ∈ f.forest.loops)
    (hpar : l.parent? = p.parent?) (hne : l ≠ p) (hx : f.InLoop e l.header x) :
    ¬ f.InLoop e p.header x := fun hx' => (hx.nested hx').elim
  (not_inLoop_sibling hf he hp hl hpar.symm hne.symm) (not_inLoop_sibling hf he hl hp hpar hne)

theorem exists_child_iff (hl : l ∈ f.forest.loops) :
    (∃ c ∈ f.forest.loops, c.id ∈ f.forest.children l.id ∧ c.header = h) ↔
      f.InLoop e h h ∧ f.Parent e l.header h := by
  have hmem : ∀ c ∈ f.forest.loops, c.id ∈ f.forest.children l.id ↔
      f.Parent e l.header c.header := by
    intro c hc
    rw [← parent?_eq_some_iff hf he hc hl, children, List.mem_map]
    simp only [List.mem_filter, decide_eq_true_eq]
    constructor
    · rintro ⟨m, ⟨hm, hpar⟩, hid⟩
      exact eq_of_id hm hc hid ▸ hpar
    · exact fun hpar => ⟨c, ⟨hc, hpar⟩, rfl⟩
  constructor
  · rintro ⟨c, hc, hch, rfl⟩
    exact ⟨headed hf he hc, (hmem c hc).1 hch⟩
  · rintro ⟨hh, hpar⟩
    obtain ⟨c, hc, rfl⟩ := exists_loop hf he hh
    exact ⟨c, hc, (hmem c hc).2 hpar, rfl⟩

/-- A loop and its parent are around the same blocks but for the loop itself. -/
theorem length_around (hl : l ∈ f.forest.loops) {h : BlockId} (hp : f.Parent e h l.header) :
    (around f l.header).length = (around f h).length + 1 := by
  have hself := headed hf he hl
  have hperm : (around f l.header).Perm (l.header :: around f h) := by
    refine (List.perm_ext_iff_of_nodup (nodup_around hf he) ?_).2 fun q => ?_
    · refine List.nodup_cons.2 ⟨fun hm => ?_, nodup_around hf he⟩
      have := ((mem_around hf he).1 hm).antisymm hp.holds
      exact hp.ne this.symm
    · rw [List.mem_cons, mem_around hf he, mem_around hf he]
      constructor
      · intro hq
        by_cases hne : q = l.header
        · exact .inl hne
        · exact .inr (hp.least q hq hne)
      · rintro (rfl | hq)
        · exact hself
        · exact hq.trans hp.holds
  simpa using hperm.length_eq

theorem around_eq_singleton (hl : l ∈ f.forest.loops) (h : l.parent? = none) :
    around f l.header = [l.header] := by
  have hnone := (parent?_eq_none_iff hf he hl).1 h
  have hperm : (around f l.header).Perm [l.header] := by
    refine (List.perm_ext_iff_of_nodup (nodup_around hf he) (List.nodup_singleton _)).2 fun q => ?_
    rw [mem_around hf he, List.mem_singleton]
    exact ⟨hnone q, fun hq => hq ▸ headed hf he hl⟩
  exact hperm.eq_singleton

theorem around_pos (hl : l ∈ f.forest.loops) : 0 < (around f l.header).length :=
  List.length_pos_of_mem ((mem_around hf he).2 (headed hf he hl))

omit hf he in
theorem parent?_id (hl : l ∈ f.forest.loops) : f.forest.parent? l.id = l.parent? := by
  rw [parent?, loop?_id hl]
  rfl

/-- Climbing far enough meets every loop around a loop. -/
theorem climb_spec (fuel : Nat) (hl : l ∈ f.forest.loops)
    (hfuel : (around f l.header).length ≤ fuel + 1) :
    (f.forest.climb fuel l.id).length + 1 = (around f l.header).length ∧
      ∀ p ∈ f.forest.loops, p.id ∈ f.forest.climb fuel l.id ↔
        p ≠ l ∧ f.InLoop e p.header l.header := by
  induction fuel generalizing l with
  | zero =>
    have hpos := around_pos hf he hl
    have hone : (around f l.header).length = 1 := by omega
    refine ⟨by rw [hone]; rfl, fun p hp => ⟨fun h => absurd h List.not_mem_nil, ?_⟩⟩
    rintro ⟨hne, hin⟩
    obtain ⟨a, ha⟩ := List.length_eq_one_iff.1 hone
    have hp' := (mem_around hf he).2 hin
    have hl' := (mem_around hf he).2 (headed hf he hl)
    rw [ha, List.mem_singleton] at hp' hl'
    exact absurd (eq_of_header hf he hp hl (hp'.trans hl'.symm)) hne
  | succ fuel ih =>
    rw [climb, parent?_id hl]
    cases hpar : l.parent? with
    | none =>
      rw [around_eq_singleton hf he hl hpar]
      refine ⟨rfl, fun p hp => ⟨fun h => absurd h List.not_mem_nil, ?_⟩⟩
      rintro ⟨hne, hin⟩
      exact absurd (eq_of_header hf he hp hl ((parent?_eq_none_iff hf he hl).1 hpar _ hin)) hne
    | some i =>
      obtain ⟨q, hq, rfl, hpq⟩ := exists_parent hf he hl hpar
      have hlen := length_around hf he hl hpq
      obtain ⟨ih₁, ih₂⟩ := ih hq (by omega)
      refine ⟨by rw [List.length_cons, ih₁, hlen], fun p hp => ?_⟩
      rw [List.mem_cons, ih₂ p hp]
      constructor
      · rintro (hid | ⟨hne, hin⟩)
        · obtain rfl := eq_of_id hp hq hid
          exact ⟨fun h => hpq.ne (congrArg Loop.header h), hpq.holds⟩
        · refine ⟨?_, hin.trans hpq.holds⟩
          rintro rfl
          exact hpq.ne (hpq.holds.antisymm hin)
      · rintro ⟨hne, hin⟩
        by_cases hpq' : p = q
        · exact .inl (congrArg Loop.id hpq')
        · refine .inr ⟨hpq', hpq.least _ hin fun h => hne (eq_of_header hf he hp hl h)⟩

omit hf he in
theorem length_around_le (b : BlockId) : (around f b).length ≤ f.forest.loops.length := by
  rw [around, List.length_map]
  exact List.length_filter_le _ _

theorem depth_eq (hl : l ∈ f.forest.loops) : f.forest.depth l.id = (around f l.header).length := by
  have := length_around_le (f := f) l.header
  rw [depth, ancestors]
  exact (climb_spec hf he _ hl (by omega)).1

theorem encloses_iff (hl : l ∈ f.forest.loops) (hp : p ∈ f.forest.loops) :
    f.forest.encloses p.id l.id ↔ f.InLoop e p.header l.header := by
  have := length_around_le (f := f) l.header
  have hc := (climb_spec hf he f.forest.loops.length hl (by omega)).2 p hp
  rw [encloses, Bool.or_eq_true, decide_eq_true_eq, List.contains_iff_mem, ancestors, hc]
  constructor
  · rintro (h | h)
    · obtain rfl := eq_of_id hl hp h
      exact headed hf he hl
    · exact h.2
  · intro h
    by_cases hpl : p = l
    · exact .inl (congrArg Loop.id hpl.symm)
    · exact .inr ⟨hpl, h⟩

theorem loopFor?_eq_some {i : LoopId} (h : f.forest.loopFor? b = some i) :
    ∃ l ∈ f.forest.loops, l.id = i ∧ f.InLoop e l.header b ∧
      ∀ q, f.InLoop e q b → f.InLoop e q l.header := by
  rw [loopFor?, Option.map_eq_some_iff] at h
  obtain ⟨l, hmin, rfl⟩ := h
  obtain ⟨hl, hb⟩ := List.mem_filter.1 (List.minOn?_mem hmin)
  have hin := (contains_iff hf he hl).1 hb
  refine ⟨l, hl, rfl, hin, fun q hq => ?_⟩
  obtain ⟨q, hql, rfl⟩ := exists_loop hf he hq.header
  have hle := minOn?_le hmin (List.mem_filter.2 ⟨hql, (contains_iff hf he hql).2 hq⟩)
  exact inLoop_of_length_le (region_is hf he hl) (region_is hf he hql) hin hq hle

theorem loopFor?_eq_none (h : f.forest.loopFor? b = none) (q : BlockId) : ¬ f.InLoop e q b := by
  intro hq
  obtain ⟨q, hql, rfl⟩ := exists_loop hf he hq.header
  rw [loopFor?, Option.map_eq_none_iff] at h
  have hm : q ∈ f.forest.loops.filter (·.contains b) :=
    List.mem_filter.2 ⟨hql, (contains_iff hf he hql).2 hq⟩
  exact absurd (List.isSome_minOn?_of_mem (f := fun l : Loop => l.blocks.length) hm)
    (by rw [h]; simp)

end LoopForest

end LoopFusion
