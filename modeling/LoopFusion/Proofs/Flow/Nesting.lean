import LoopFusion.Proofs.Flow.Forest
import LoopFusion.Proofs.Flow.VisitOrder

/-!
How loops nest, said of their blocks: two loops are apart or one is inside the other, the parent of
a loop is the smallest around it, and its depth, by one pass or by climbing, counts those around it.
-/

namespace LoopFusion

open Relation LoopFusion.Flow

namespace Loop

/-- A loop holds all blocks of this one, and more. -/
def Inside (a b : Loop) : Prop := a.blocks ⊆ b.blocks ∧ ¬ b.blocks ⊆ a.blocks

instance : DecidableRel Inside := fun a b =>
  inferInstanceAs (Decidable (a.blocks ⊆ b.blocks ∧ ¬ b.blocks ⊆ a.blocks))

theorem Inside.trans {a b c : Loop} (h : a.Inside b) (h' : b.Inside c) : a.Inside c :=
  ⟨fun _ hx => h'.1 (h.1 hx), fun hsub => h'.2 fun _ hx => h.1 (hsub hx)⟩

/-- Of the loops with a property, this one is inside all others. -/
structure Smallest (t : LoopForest) (P : Loop → Prop) (l : Loop) : Prop where
  mem : l ∈ t.loops
  holds : P l
  least : ∀ q ∈ t.loops, P q → q ≠ l → l.Inside q ∧ l.blocks.length < q.blocks.length

end Loop

namespace LoopForest

/-- Going from parent to parent until there is none. -/
inductive Ascends (t : LoopForest) : LoopId → List LoopId → Prop
  | top {l : LoopId} : t.parent? l = none → Ascends t l []
  | up {l p : LoopId} {ps : List LoopId} :
    t.parent? l = some p → Ascends t p ps → Ascends t l (p :: ps)

/-- The depths by one pass over the loops in their order; a depth not yet known counts as one. -/
def depthsInOnePass (t : LoopForest) : List Nat :=
  t.loops.foldl (fun ds l => ds ++ [l.parent?.elim 1 fun p => ds.getD p.index 1 + 1]) []

/-- What parents, depths and the innermost loops of blocks say about containment. -/
structure Nested (t : LoopForest) : Prop where
  laminar : ∀ a ∈ t.loops, ∀ b ∈ t.loops, a ≠ b →
    a.blocks.Disjoint b.blocks ∨ a.Inside b ∨ b.Inside a
  parent_some : ∀ l ∈ t.loops, ∀ i, l.parent? = some i ↔ ∃ p : Loop, p.id = i ∧ p.Smallest t l.Inside
  parent_none : ∀ l ∈ t.loops, l.parent? = none ↔ ∀ p ∈ t.loops, ¬ l.Inside p
  children : ∀ i, (t.children i).Nodup ∧
    ∀ c, c ∈ t.children i ↔ ∃ l ∈ t.loops, l.id = c ∧ l.parent? = some i
  ancestors : ∀ l ∈ t.loops, t.Ascends l.id (t.ancestors l.id) ∧ (t.ancestors l.id).Nodup ∧
    ∀ i, i ∈ t.ancestors l.id ↔ ∃ p ∈ t.loops, p.id = i ∧ l.Inside p
  depth : ∀ l ∈ t.loops, t.depth l.id = (t.loops.filter fun p => l.Inside p).length + 1
  onePass : t.depthsInOnePass = t.loops.map fun l => t.depth l.id
  encloses : ∀ a ∈ t.loops, ∀ b ∈ t.loops, t.encloses a.id b.id ↔ b.blocks ⊆ a.blocks
  loopFor_some : ∀ b i, t.loopFor? b = some i ↔ ∃ l : Loop, l.id = i ∧ l.Smallest t (b ∈ ·.blocks)
  loopFor_none : ∀ b, t.loopFor? b = none ↔ ∀ l ∈ t.loops, b ∉ l.blocks

variable {f : Func} {e b : BlockId} {l p q : Loop}

section

variable (hf : f.InArena) (he : f.entry? = some e)

include hf he

theorem mem_blocks_iff (hl : l ∈ f.forest.loops) : b ∈ l.blocks ↔ f.InLoop e l.header b :=
  (region_is hf he hl).blocks b

theorem subset_iff (hl : l ∈ f.forest.loops) (hp : p ∈ f.forest.loops) :
    l.blocks ⊆ p.blocks ↔ f.InLoop e p.header l.header := by
  constructor
  · intro h
    exact (mem_blocks_iff hf he hp).1 (h ((mem_blocks_iff hf he hl).2 (headed hf he hl)))
  · intro h b hb
    exact (mem_blocks_iff hf he hp).2 (h.trans ((mem_blocks_iff hf he hl).1 hb))

theorem inside_iff (hl : l ∈ f.forest.loops) (hp : p ∈ f.forest.loops) :
    l.Inside p ↔ p ≠ l ∧ f.InLoop e p.header l.header := by
  rw [Loop.Inside, subset_iff hf he hl hp, subset_iff hf he hp hl]
  constructor
  · rintro ⟨h, hn⟩
    refine ⟨?_, h⟩
    rintro rfl
    exact hn h
  · rintro ⟨hne, h⟩
    exact ⟨h, fun h' => hne (eq_of_header hf he hp hl (h.antisymm h'))⟩

theorem length_lt_of_inside (hl : l ∈ f.forest.loops) (h : l.Inside p) :
    l.blocks.length < p.blocks.length := by
  have hsub := (region_is hf he hl).nodup.subperm h.1
  refine Nat.lt_of_not_le fun hle => h.2 ?_
  exact (hsub.perm_of_length_le hle).symm.subset

theorem nodup_loops : f.forest.loops.Nodup := (nodup_headers hf he).of_map _

theorem nodup_ids : (f.forest.loops.map (·.id)).Nodup :=
  (nodup_loops hf he).map_on fun _ hl _ hp => eq_of_id hl hp

theorem smallest_of_inLoop {P : Loop → Prop} (hl : l ∈ f.forest.loops) (hP : P l)
    (h : ∀ q ∈ f.forest.loops, P q → f.InLoop e q.header l.header) : l.Smallest f.forest P where
  mem := hl
  holds := hP
  least q hq hPq hne := by
    have hin := (inside_iff hf he hl hq).2 ⟨hne, h q hq hPq⟩
    exact ⟨hin, length_lt_of_inside hf he hl hin⟩

theorem laminar (hl : l ∈ f.forest.loops) (hp : p ∈ f.forest.loops) (hne : l ≠ p) :
    l.blocks.Disjoint p.blocks ∨ l.Inside p ∨ p.Inside l := by
  rw [or_iff_not_imp_left]
  intro hmeet
  obtain ⟨b, hb, hb'⟩ : ∃ b, b ∈ l.blocks ∧ b ∈ p.blocks := by
    by_contra hn
    exact hmeet fun b hb hb' => hn ⟨b, hb, hb'⟩
  have hnested := ((mem_blocks_iff hf he hl).1 hb).nested ((mem_blocks_iff hf he hp).1 hb')
  rcases hnested with h | h
  · exact .inr ((inside_iff hf he hp hl).2 ⟨hne, h⟩)
  · exact .inl ((inside_iff hf he hl hp).2 ⟨hne.symm, h⟩)

theorem parent?_eq_some_iff_smallest (hl : l ∈ f.forest.loops) {i : LoopId} :
    l.parent? = some i ↔ ∃ p : Loop, p.id = i ∧ p.Smallest f.forest l.Inside := by
  constructor
  · intro h
    obtain ⟨p, hp, rfl, hpar⟩ := exists_parent hf he hl h
    have hne : p ≠ l := fun he => hpar.ne (congrArg Loop.header he)
    refine ⟨p, rfl, smallest_of_inLoop hf he hp ?_ fun q hq hin => ?_⟩
    · exact (inside_iff hf he hl hp).2 ⟨hne, hpar.holds⟩
    · obtain ⟨hne, hin⟩ := (inside_iff hf he hl hq).1 hin
      exact hpar.least _ hin fun h => hne (eq_of_header hf he hq hl h)
  · rintro ⟨p, rfl, hs⟩
    obtain ⟨hne, hin⟩ := (inside_iff hf he hl hs.mem).1 hs.holds
    refine (parent?_eq_some_iff hf he hl hs.mem).2
      ⟨fun h => hne (eq_of_header hf he hs.mem hl h), hin, fun h hh hne => ?_⟩
    obtain ⟨q, hq, rfl⟩ := exists_loop hf he hh.header
    by_cases hqp : q = p
    · exact hqp ▸ headed hf he hq
    · have hql : q ≠ l := fun h => hne (congrArg Loop.header h)
      have := (hs.least q hq ((inside_iff hf he hl hq).2 ⟨hql, hh⟩) hqp).1
      exact ((inside_iff hf he hs.mem hq).1 this).2

theorem parent?_eq_none_iff_inside (hl : l ∈ f.forest.loops) :
    l.parent? = none ↔ ∀ p ∈ f.forest.loops, ¬ l.Inside p := by
  rw [parent?_eq_none_iff hf he hl]
  constructor
  · intro h p hp hin
    obtain ⟨hne, hin⟩ := (inside_iff hf he hl hp).1 hin
    exact hne (eq_of_header hf he hp hl (h _ hin))
  · intro h q hq
    obtain ⟨q, hql, rfl⟩ := exists_loop hf he hq.header
    by_contra hne
    refine h q hql ((inside_iff hf he hl hql).2 ⟨?_, hq⟩)
    rintro rfl
    exact hne rfl

/-! Ancestors and depths. -/

theorem ascends_climb (fuel : Nat) (hl : l ∈ f.forest.loops)
    (hfuel : (around f l.header).length ≤ fuel + 1) :
    f.forest.Ascends l.id (f.forest.climb fuel l.id) := by
  induction fuel generalizing l with
  | zero =>
    have hnone : l.parent? = none := by
      by_contra hne
      obtain ⟨i, hi⟩ := Option.ne_none_iff_exists'.1 hne
      obtain ⟨p, hp, -, hpar⟩ := exists_parent hf he hl hi
      have := length_around hf he hl hpar
      have := around_pos hf he hp
      omega
    exact .top ((parent?_id hl).trans hnone)
  | succ fuel ih =>
    rw [climb, parent?_id hl]
    cases hpar : l.parent? with
    | none => exact .top ((parent?_id hl).trans hpar)
    | some i =>
      obtain ⟨p, hp, rfl, hpl⟩ := exists_parent hf he hl hpar
      have := length_around hf he hl hpl
      exact .up ((parent?_id hl).trans hpar) (ih hp (by omega))

theorem ascends_ancestors (hl : l ∈ f.forest.loops) :
    f.forest.Ascends l.id (f.forest.ancestors l.id) :=
  ascends_climb hf he _ hl ((length_around_le l.header).trans (Nat.le_succ _))

/-- The way up from a loop meets the loops around it, each once. -/
theorem Ascends.spec {ps : List LoopId} (h : f.forest.Ascends l.id ps) (hl : l ∈ f.forest.loops) :
    ps.Nodup ∧ ∀ i, i ∈ ps ↔ ∃ p ∈ f.forest.loops, p.id = i ∧ l.Inside p := by
  generalize hi : l.id = i at h
  induction h generalizing l with
  | top hnone =>
    subst hi
    have hnone := (parent?_eq_none_iff_inside hf he hl).1 ((parent?_id hl).symm.trans hnone)
    refine ⟨List.nodup_nil, fun i => ⟨fun h => absurd h List.not_mem_nil, ?_⟩⟩
    rintro ⟨p, hp, -, hin⟩
    exact absurd hin (hnone p hp)
  | @up _ j ps hj _ ih =>
    subst hi
    obtain ⟨p, rfl, hp⟩ :=
      (parent?_eq_some_iff_smallest hf he hl).1 ((parent?_id hl).symm.trans hj)
    obtain ⟨hnodup, hmem⟩ := ih hp.mem rfl
    refine ⟨List.nodup_cons.2 ⟨fun h => ?_, hnodup⟩, fun i => ?_⟩
    · obtain ⟨q, hq, hid, hin⟩ := (hmem _).1 h
      exact ((inside_iff hf he hp.mem hq).1 hin).1 (eq_of_id hq hp.mem hid)
    · rw [List.mem_cons, hmem]
      constructor
      · rintro (rfl | ⟨q, hq, hid, hin⟩)
        · exact ⟨p, hp.mem, rfl, hp.holds⟩
        · exact ⟨q, hq, hid, hp.holds.trans hin⟩
      · rintro ⟨q, hq, rfl, hin⟩
        by_cases hqp : q = p
        · exact .inl (congrArg Loop.id hqp)
        · exact .inr ⟨q, hq, rfl, (hp.least q hq hin hqp).1⟩

theorem depth_lt_of_inside (hl : l ∈ f.forest.loops) (hp : p ∈ f.forest.loops)
    (h : l.Inside p) : f.forest.depth p.id < f.forest.depth l.id := by
  obtain ⟨hne, hin⟩ := (inside_iff hf he hl hp).1 h
  have hnodup : (l.header :: around f p.header).Nodup := by
    refine List.nodup_cons.2 ⟨fun hm => ?_, nodup_around hf he⟩
    exact hne (eq_of_header hf he hp hl (hin.antisymm ((mem_around hf he).1 hm)))
  have hsub : l.header :: around f p.header ⊆ around f l.header := by
    refine List.cons_subset.2 ⟨(mem_around hf he).2 (headed hf he hl), fun q hq => ?_⟩
    exact (mem_around hf he).2 (((mem_around hf he).1 hq).trans hin)
  rw [depth_eq hf he hl, depth_eq hf he hp]
  exact (hnodup.subperm hsub).length_le

theorem depth_of_parent (hl : l ∈ f.forest.loops) :
    f.forest.depth l.id = l.parent?.elim 1 fun i => f.forest.depth i + 1 := by
  rw [depth_eq hf he hl]
  cases hpar : l.parent? with
  | none => rw [around_eq_singleton hf he hl hpar]; rfl
  | some i =>
    obtain ⟨p, hp, rfl, hpl⟩ := exists_parent hf he hl hpar
    rw [length_around hf he hl hpl, ← depth_eq hf he hp]
    rfl

theorem depth_eq_length_filter (hl : l ∈ f.forest.loops) :
    f.forest.depth l.id = (f.forest.loops.filter fun p => l.Inside p).length + 1 := by
  have hspec := (ascends_ancestors hf he hl).spec hf he hl
  have hperm : (f.forest.ancestors l.id).Perm
      ((f.forest.loops.filter fun p => l.Inside p).map (·.id)) := by
    refine (List.perm_ext_iff_of_nodup hspec.1 ?_).2 fun i => ?_
    · exact (List.filter_sublist.map _).nodup (nodup_ids hf he)
    · rw [hspec.2]
      simp only [List.mem_map, List.mem_filter, decide_eq_true_eq, and_assoc]
      exact exists_congr fun p => and_congr_right fun _ => and_comm
  rw [depth, hperm.length_eq, List.length_map]

/-- The header of a parent dominates, so it is visited first. -/
theorem parent_index_lt (hl : l ∈ f.forest.loops) {i : LoopId} (h : l.parent? = some i) :
    i.index < l.id.index := by
  obtain ⟨p, hp, rfl, hpar⟩ := exists_parent hf he hl h
  have hbefore := Cfg.precedes_of_dom hf he hpar.holds.dom hpar.ne
  by_contra hn
  rcases Nat.lt_or_eq_of_le (Nat.le_of_not_lt hn) with hlt | heq
  · have hloops : Precedes f.forest.loops l p :=
      precedes_iff.2 ⟨_, _, hlt, loop?_id hl, loop?_id hp⟩
    have hheaders := (hloops.map (·.header)).mono (headers_sublist f)
    exact hbefore.asymm (Cfg.nodup_order hf he) hheaders
  · have : l = p := eq_of_id hl hp (congrArg LoopId.mk heq)
    exact hpar.ne (this ▸ rfl)

/-- Since parents come first, one pass finds all depths. -/
theorem depthsInOnePass_eq :
    f.forest.depthsInOnePass = f.forest.loops.map fun l => f.forest.depth l.id := by
  have key : ∀ rest done : List Loop, f.forest.loops = done ++ rest →
      rest.foldl (fun ds l => ds ++ [l.parent?.elim 1 fun p => ds.getD p.index 1 + 1])
        (done.map fun l => f.forest.depth l.id) = f.forest.loops.map fun l => f.forest.depth l.id := by
    intro rest
    induction rest with
    | nil =>
      intro done h
      rw [h, List.append_nil, List.foldl_nil]
    | cons l rest ih =>
      intro done h
      have hl : l ∈ f.forest.loops := h ▸ by simp
      have hat : f.forest.loop? ⟨done.length⟩ = some l := by
        rw [loop?, h, List.getElem?_append_right (Nat.le_refl _), Nat.sub_self]
        rfl
      have hid := (mem_of_loop? hat).2
      rw [List.foldl_cons, ← ih (done ++ [l]) (by simp [h]), List.map_append, List.map_singleton,
        depth_of_parent hf he hl]
      cases hpar : l.parent? with
      | none => rfl
      | some i =>
        have hlt := parent_index_lt hf he hl hpar
        rw [hid] at hlt
        obtain ⟨p, hp, rfl, -⟩ := exists_parent hf he hl hpar
        have hdone : done[p.id.index]? = some p := by
          have := loop?_id hp
          rwa [loop?, h, List.getElem?_append_left hlt] at this
        simp [List.getD_eq_getElem?_getD, hdone]
  exact key f.forest.loops [] rfl

theorem loopFor?_eq_some_iff {i : LoopId} : f.forest.loopFor? b = some i ↔
    ∃ l : Loop, l.id = i ∧ l.Smallest f.forest (b ∈ ·.blocks) := by
  constructor
  · intro h
    obtain ⟨l, hl, rfl, hin, hleast⟩ := loopFor?_eq_some hf he h
    refine ⟨l, rfl, smallest_of_inLoop hf he hl ((mem_blocks_iff hf he hl).2 hin) fun q hq hb => ?_⟩
    exact hleast _ ((mem_blocks_iff hf he hq).1 hb)
  · rintro ⟨l, rfl, hs⟩
    cases hj : f.forest.loopFor? b with
    | none => exact absurd ((mem_blocks_iff hf he hs.mem).1 hs.holds) (loopFor?_eq_none hf he hj _)
    | some j =>
      obtain ⟨p, hp, rfl, hin, hleast⟩ := loopFor?_eq_some hf he hj
      by_cases hpl : p = l
      · rw [hpl]
      · have hb := (mem_blocks_iff hf he hp).2 hin
        have := hleast _ ((mem_blocks_iff hf he hs.mem).1 hs.holds)
        exact absurd ((subset_iff hf he hp hs.mem).2 this) (hs.least p hp hb hpl).1.2

theorem loopFor?_eq_none_iff :
    f.forest.loopFor? b = none ↔ ∀ l ∈ f.forest.loops, b ∉ l.blocks := by
  constructor
  · intro h l hl hb
    exact loopFor?_eq_none hf he h _ ((mem_blocks_iff hf he hl).1 hb)
  · intro h
    cases hi : f.forest.loopFor? b with
    | none => rfl
    | some i =>
      obtain ⟨l, -, hs⟩ := (loopFor?_eq_some_iff hf he).1 hi
      exact absurd hs.holds (h l hs.mem)

omit hf he in
theorem mem_children {i c : LoopId} : c ∈ f.forest.children i ↔
    ∃ l ∈ f.forest.loops, l.id = c ∧ l.parent? = some i := by
  simp only [children, List.mem_map, List.mem_filter, decide_eq_true_eq, and_assoc]
  exact exists_congr fun l => and_congr_right fun _ => and_comm

theorem nested : Nested f.forest where
  laminar _ ha _ hb := laminar hf he ha hb
  parent_some _ hl _ := parent?_eq_some_iff_smallest hf he hl
  parent_none _ hl := parent?_eq_none_iff_inside hf he hl
  children _ := ⟨(List.filter_sublist.map _).nodup (nodup_ids hf he), fun _ => mem_children⟩
  ancestors _ hl :=
    ⟨ascends_ancestors hf he hl, (ascends_ancestors hf he hl).spec hf he hl⟩
  depth _ hl := depth_eq_length_filter hf he hl
  onePass := depthsInOnePass_eq hf he
  encloses _ ha _ hb := (encloses_iff hf he hb ha).trans (subset_iff hf he hb ha).symm
  loopFor_some _ _ := loopFor?_eq_some_iff hf he
  loopFor_none _ := loopFor?_eq_none_iff hf he

end

end LoopForest

end LoopFusion
