import LoopFusion.Proofs.Flow.Nesting

/-!
The preorder of the loops of a function: every loop once, behind its parent, with the loops inside
it right behind, and loops side by side in the order in which their headers are visited.
-/

namespace LoopFusion

open Relation LoopFusion.Flow

section Lists

variable {α β : Type} {l : List α} {a : α}

theorem exists_flatMap_split (g : α → List β) (ha : a ∈ l) :
    ∃ s t, l.flatMap g = s ++ (g a ++ t) := by
  obtain ⟨s, t, rfl⟩ := List.append_of_mem ha
  exact ⟨s.flatMap g, t.flatMap g, by simp⟩

theorem sublist_flatMap {g : α → List α} (h : ∀ a ∈ l, a ∈ g a) : l.Sublist (l.flatMap g) := by
  induction l with
  | nil => simp
  | cons a l ih =>
    rw [List.forall_mem_cons] at h
    rw [List.flatMap_cons, ← List.singleton_append]
    exact (List.singleton_sublist.2 h.1).append (ih h.2)

end Lists

namespace LoopForest

/-- The walk with a stack that lists each loop before the loops inside it. -/
inductive Tours (t : LoopForest) : List LoopId → List LoopId → Prop
  | done : Tours t [] []
  | visit {l : LoopId} {ls out : List LoopId} :
    Tours t (t.children l ++ ls) out → Tours t (l :: ls) (l :: out)

/-- What there is to say about the order in which a forest lists its loops, where `order` is that
of their headers. -/
structure InPreorder (t : LoopForest) (order : List BlockId) : Prop where
  tours : t.Tours t.topLevel t.preorder
  mem : ∀ i, i ∈ t.preorder ↔ ∃ l ∈ t.loops, l.id = i
  once : t.preorder.Nodup
  parents : ∀ l ∈ t.loops, ∀ i, l.parent? = some i → Precedes t.preorder i l.id
  contiguous : ∀ l ∈ t.loops, ∃ before inner after,
    t.preorder = before ++ l.id :: (inner ++ after) ∧
      ∀ d ∈ t.loops, d.id ∈ inner ↔ d.Inside l
  siblings : ∀ a ∈ t.loops, ∀ b ∈ t.loops, a.parent? = b.parent? →
    (Precedes t.preorder a.id b.id ↔ Precedes order a.header b.header)

theorem Tours.append {t : LoopForest} {ls ls' out out' : List LoopId} (h : t.Tours ls out)
    (h' : t.Tours ls' out') : t.Tours (ls ++ ls') (out ++ out') := by
  induction h with
  | done => exact h'
  | visit _ ih =>
    rw [List.append_assoc] at ih
    exact .visit ih

theorem Tours.flatMap {t : LoopForest} {ls : List LoopId} {g : LoopId → List LoopId}
    (h : ∀ l ∈ ls, t.Tours [l] (g l)) : t.Tours ls (ls.flatMap g) := by
  induction ls with
  | nil => exact .done
  | cons l ls ih =>
    rw [List.forall_mem_cons] at h
    exact h.1.append (ih h.2)

def siblings (f : Func) (p : Option LoopId) : List Loop :=
  f.forest.loops.filter (·.parent? = p)

/-- The loop `l` and the loops inside it. -/
def within (f : Func) (l : Loop) : List Loop := f.forest.loops.filter (l.contains ·.header)

variable {f : Func} {e : BlockId} {l m p : Loop} {fuel : Nat}

theorem topLevel_eq : f.forest.topLevel = (siblings f none).map (·.id) := by
  rw [topLevel, siblings]
  congr 2
  funext l
  cases l.parent? <;> rfl

theorem children_eq (i : LoopId) : f.forest.children i = (siblings f (some i)).map (·.id) := rfl

theorem mem_siblings {i : Option LoopId} :
    m ∈ siblings f i ↔ m ∈ f.forest.loops ∧ m.parent? = i := by
  rw [siblings, List.mem_filter, decide_eq_true_eq]

theorem preorder_eq : f.forest.preorder = ((siblings f none).map (·.id)).flatMap
    (f.forest.subtree f.forest.loops.length) := by
  rw [preorder, topLevel_eq]

theorem length_within_le (l : Loop) : (within f l).length ≤ f.forest.loops.length :=
  List.length_filter_le _ _

section

variable (hf : f.InArena) (he : f.entry? = some e)

include hf he

theorem mem_within (hl : l ∈ f.forest.loops) :
    m ∈ within f l ↔ m ∈ f.forest.loops ∧ f.InLoop e l.header m.header := by
  rw [within, List.mem_filter, contains_iff hf he hl]

theorem self_mem_within (hl : l ∈ f.forest.loops) : l ∈ within f l :=
  (mem_within hf he hl).2 ⟨hl, headed hf he hl⟩

theorem length_within_lt (hl : l ∈ f.forest.loops) (hp : p ∈ f.forest.loops)
    (h : l.parent? = some p.id) : (within f l).length < (within f p).length := by
  have hpar := (parent?_eq_some_iff hf he hl hp).1 h
  have hnodup : (p :: within f l).Nodup := by
    refine List.nodup_cons.2 ⟨fun hm => ?_, List.filter_sublist.nodup (nodup_loops hf he)⟩
    exact hpar.ne (hpar.holds.antisymm ((mem_within hf he hl).1 hm).2)
  have hsub : p :: within f l ⊆ within f p := by
    refine List.cons_subset.2 ⟨self_mem_within hf he hp, fun m hm => ?_⟩
    obtain ⟨hm, hin⟩ := (mem_within hf he hl).1 hm
    exact (mem_within hf he hp).2 ⟨hm, hpar.holds.trans hin⟩
  exact (hnodup.subperm hsub).length_le

theorem exists_child_within (hl : l ∈ f.forest.loops) (hm : m ∈ f.forest.loops) (hne : l ≠ m)
    (h : f.InLoop e l.header m.header) :
    ∃ c ∈ siblings f (some l.id), f.InLoop e c.header m.header := by
  induction hn : (around f m.header).length using Nat.strong_induction_on generalizing m with
  | _ n ih =>
    have hhead : l.header ≠ m.header := fun he' => hne (eq_of_header hf he hl hm he')
    cases hpar : m.parent? with
    | none => exact absurd ((parent?_eq_none_iff hf he hm).1 hpar _ h) hhead
    | some i =>
      obtain ⟨q, hq, rfl, hqm⟩ := exists_parent hf he hm hpar
      by_cases hlq : l = q
      · exact ⟨m, mem_siblings.2 ⟨hm, hlq ▸ hpar⟩, headed hf he hm⟩
      · have hlen := length_around hf he hm hqm
        obtain ⟨c, hc, hcq⟩ := ih _ (by omega) hq hlq (hqm.least _ h hhead) rfl
        exact ⟨c, hc, hcq.trans hqm.holds⟩

theorem mem_subtree (hl : l ∈ f.forest.loops) (hfuel : (within f l).length ≤ fuel) {i : LoopId} :
    i ∈ f.forest.subtree fuel l.id ↔ ∃ m ∈ within f l, m.id = i := by
  induction fuel generalizing l with
  | zero =>
    have := List.length_pos_of_mem (self_mem_within hf he hl)
    omega
  | succ fuel ih =>
    have hchild : ∀ c ∈ siblings f (some l.id), c ∈ f.forest.loops ∧
        f.InLoop e l.header c.header ∧ (within f c).length ≤ fuel := by
      intro c hc
      obtain ⟨hc, hpar⟩ := mem_siblings.1 hc
      have := length_within_lt hf he hc hl hpar
      exact ⟨hc, ((parent?_eq_some_iff hf he hc hl).1 hpar).holds, by omega⟩
    rw [subtree, List.mem_cons, children_eq, List.flatMap_map, List.mem_flatMap]
    constructor
    · rintro (rfl | ⟨c, hc, hi⟩)
      · exact ⟨l, self_mem_within hf he hl, rfl⟩
      · obtain ⟨hcl, hin, hlen⟩ := hchild c hc
        obtain ⟨m, hm, rfl⟩ := (ih hcl hlen).1 hi
        obtain ⟨hm, hcm⟩ := (mem_within hf he hcl).1 hm
        exact ⟨m, (mem_within hf he hl).2 ⟨hm, hin.trans hcm⟩, rfl⟩
    · rintro ⟨m, hm, rfl⟩
      obtain ⟨hm, hin⟩ := (mem_within hf he hl).1 hm
      by_cases hlm : l = m
      · exact .inl (hlm ▸ rfl)
      · obtain ⟨c, hc, hcm⟩ := exists_child_within hf he hl hm hlm hin
        obtain ⟨hcl, -, hlen⟩ := hchild c hc
        exact .inr ⟨c, hc, (ih hcl hlen).2 ⟨m, (mem_within hf he hcl).2 ⟨hm, hcm⟩, rfl⟩⟩

theorem nodup_flatMap_siblings {i : Option LoopId}
    (hfuel : ∀ c ∈ siblings f i, (within f c).length ≤ fuel)
    (hnodup : ∀ c ∈ siblings f i, (f.forest.subtree fuel c.id).Nodup) :
    (((siblings f i).map (·.id)).flatMap (f.forest.subtree fuel)).Nodup := by
  rw [List.flatMap_map, List.nodup_flatMap]
  refine ⟨hnodup, List.Nodup.pairwise_of_forall_ne ?_ fun a ha b hb hne j hja hjb => ?_⟩
  · exact List.filter_sublist.nodup (nodup_loops hf he)
  · obtain ⟨hal, hpa⟩ := mem_siblings.1 ha
    obtain ⟨hbl, hpb⟩ := mem_siblings.1 hb
    obtain ⟨m, hm, rfl⟩ := (mem_subtree hf he hal (hfuel a ha)).1 hja
    obtain ⟨m', hm', hid⟩ := (mem_subtree hf he hbl (hfuel b hb)).1 hjb
    obtain ⟨hml, hma⟩ := (mem_within hf he hal).1 hm
    obtain ⟨hml', hmb⟩ := (mem_within hf he hbl).1 hm'
    obtain rfl := eq_of_id hml' hml hid
    exact disjoint_siblings hf he hal hbl (hpa.trans hpb.symm) hne hma hmb

theorem length_within_child (hl : l ∈ f.forest.loops) (hfuel : (within f l).length ≤ fuel + 1) :
    ∀ c ∈ siblings f (some l.id), c ∈ f.forest.loops ∧ (within f c).length ≤ fuel := by
  intro c hc
  obtain ⟨hc, hpar⟩ := mem_siblings.1 hc
  have := length_within_lt hf he hc hl hpar
  exact ⟨hc, by omega⟩

theorem nodup_subtree (hl : l ∈ f.forest.loops) (hfuel : (within f l).length ≤ fuel) :
    (f.forest.subtree fuel l.id).Nodup := by
  induction fuel generalizing l with
  | zero => exact List.nodup_nil
  | succ fuel ih =>
    have hchild := length_within_child hf he hl hfuel
    rw [subtree, children_eq]
    refine List.nodup_cons.2 ⟨fun h => ?_, nodup_flatMap_siblings hf he
      (fun c hc => (hchild c hc).2) fun c hc => ih (hchild c hc).1 (hchild c hc).2⟩
    rw [List.flatMap_map, List.mem_flatMap] at h
    obtain ⟨c, hc, hi⟩ := h
    obtain ⟨hcl, hlen⟩ := hchild c hc
    obtain ⟨m, hm, hid⟩ := (mem_subtree hf he hcl hlen).1 hi
    obtain ⟨hml, hin⟩ := (mem_within hf he hcl).1 hm
    obtain rfl := eq_of_id hml hl hid
    have hpar := (parent?_eq_some_iff hf he hcl hl).1 (mem_siblings.1 hc).2
    exact hpar.ne (hpar.holds.antisymm hin)

theorem tours_subtree (hl : l ∈ f.forest.loops) (hfuel : (within f l).length ≤ fuel) :
    f.forest.Tours [l.id] (f.forest.subtree fuel l.id) := by
  induction fuel generalizing l with
  | zero =>
    have := List.length_pos_of_mem (self_mem_within hf he hl)
    omega
  | succ fuel ih =>
    have hchild := length_within_child hf he hl hfuel
    rw [subtree]
    refine .visit ?_
    rw [List.append_nil]
    refine .flatMap fun i hi => ?_
    rw [children_eq] at hi
    obtain ⟨c, hc, rfl⟩ := List.mem_map.1 hi
    exact ih (hchild c hc).1 (hchild c hc).2

/-! The whole forest. -/

theorem nodup_preorder : f.forest.preorder.Nodup := by
  rw [preorder_eq]
  exact nodup_flatMap_siblings hf he (fun c _ => length_within_le c)
    fun c hc => nodup_subtree hf he (mem_siblings.1 hc).1 (length_within_le c)

theorem tours_preorder : f.forest.Tours f.forest.topLevel f.forest.preorder := by
  rw [topLevel_eq, preorder_eq]
  refine .flatMap fun i hi => ?_
  obtain ⟨c, hc, rfl⟩ := List.mem_map.1 hi
  exact tours_subtree hf he (mem_siblings.1 hc).1 (length_within_le c)

/-- The loops inside a loop are listed in one piece with it. -/
theorem exists_subtree_split (hl : l ∈ f.forest.loops) : ∃ fuel s t,
    (within f l).length ≤ fuel ∧
      f.forest.preorder = s ++ (f.forest.subtree fuel l.id ++ t) := by
  induction hn : (around f l.header).length using Nat.strong_induction_on generalizing l with
  | _ n ih =>
    cases hpar : l.parent? with
    | none =>
      have hmem : l.id ∈ (siblings f none).map (·.id) :=
        List.mem_map_of_mem (mem_siblings.2 ⟨hl, hpar⟩)
      obtain ⟨s, t, hst⟩ := exists_flatMap_split (f.forest.subtree f.forest.loops.length) hmem
      exact ⟨_, s, t, length_within_le l, preorder_eq.trans hst⟩
    | some i =>
      obtain ⟨p, hp, rfl, hpl⟩ := exists_parent hf he hl hpar
      have hlen := length_around hf he hl hpl
      have hlt := length_within_lt hf he hl hp hpar
      obtain ⟨fuel, s, t, hfuel, hst⟩ := ih _ (by omega) hp rfl
      obtain ⟨fuel, rfl⟩ := Nat.exists_eq_succ_of_ne_zero (n := fuel) (by omega)
      have hmem : l.id ∈ f.forest.children p.id := mem_children.2 ⟨l, hl, rfl, hpar⟩
      obtain ⟨s', t', hst'⟩ := exists_flatMap_split (f.forest.subtree fuel) hmem
      refine ⟨fuel, s ++ p.id :: s', t' ++ t, by omega, ?_⟩
      rw [hst, subtree, hst']
      simp

theorem mem_preorder {i : LoopId} : i ∈ f.forest.preorder ↔ ∃ l ∈ f.forest.loops, l.id = i := by
  constructor
  · intro h
    rw [preorder_eq, List.flatMap_map, List.mem_flatMap] at h
    obtain ⟨c, hc, hi⟩ := h
    have hcl := (mem_siblings.1 hc).1
    obtain ⟨m, hm, hid⟩ := (mem_subtree hf he hcl (length_within_le c)).1 hi
    exact ⟨m, ((mem_within hf he hcl).1 hm).1, hid⟩
  · rintro ⟨l, hl, rfl⟩
    obtain ⟨fuel, s, t, hfuel, hst⟩ := exists_subtree_split hf he hl
    have := (mem_subtree hf he hl hfuel).2 ⟨l, self_mem_within hf he hl, rfl⟩
    rw [hst]
    exact List.mem_append_right _ (List.mem_append_left _ this)

theorem exists_contiguous (hl : l ∈ f.forest.loops) : ∃ before inner after,
    f.forest.preorder = before ++ l.id :: (inner ++ after) ∧
      ∀ d ∈ f.forest.loops, d.id ∈ inner ↔ d.Inside l := by
  obtain ⟨fuel, s, t, hfuel, hst⟩ := exists_subtree_split hf he hl
  have hmem := @mem_subtree f e l fuel hf he hl hfuel
  have hnodup := nodup_subtree hf he hl hfuel
  obtain ⟨fuel, rfl⟩ : ∃ k, fuel = k + 1 := Nat.exists_eq_succ_of_ne_zero fun h => by
    have := List.length_pos_of_mem (self_mem_within hf he hl)
    omega
  rw [subtree] at hst hmem hnodup
  refine ⟨s, _, t, hst, fun d hd => ?_⟩
  rw [inside_iff hf he hd hl]
  have hd' : d.id = l.id ∨ d.id ∈ (f.forest.children l.id).flatMap (f.forest.subtree fuel) ↔
      f.InLoop e l.header d.header := by
    rw [← List.mem_cons, hmem]
    constructor
    · rintro ⟨m, hm, hid⟩
      obtain ⟨hml, hin⟩ := (mem_within hf he hl).1 hm
      exact eq_of_id hml hd hid ▸ hin
    · exact fun h => ⟨d, (mem_within hf he hl).2 ⟨hd, h⟩, rfl⟩
  constructor
  · intro h
    refine ⟨?_, hd'.1 (.inr h)⟩
    rintro rfl
    exact (List.nodup_cons.1 hnodup).1 h
  · rintro ⟨hne, h⟩
    exact (hd'.2 h).resolve_left fun hid => hne (eq_of_id hd hl hid).symm

theorem precedes_parent (hl : l ∈ f.forest.loops) {i : LoopId} (h : l.parent? = some i) :
    Precedes f.forest.preorder i l.id := by
  obtain ⟨p, rfl, hs⟩ := (parent?_eq_some_iff_smallest hf he hl).1 h
  obtain ⟨s, inner, t, hst, hinner⟩ := exists_contiguous hf he hs.mem
  have hmem : l.id ∈ inner ++ t := List.mem_append_left _ ((hinner l hl).2 hs.holds)
  have hp : p.id ∈ s ++ [p.id] := by simp
  have := precedes_append hp hmem
  rwa [List.append_assoc, List.singleton_append, ← hst] at this

theorem siblings_sublist {i : Option LoopId} (hi : ∀ j, i = some j → ∃ p ∈ f.forest.loops, p.id = j) :
    ((siblings f i).map (·.id)).Sublist f.forest.preorder := by
  have hself : ∀ fuel, (∀ c ∈ siblings f i, (within f c).length ≤ fuel) →
      ((siblings f i).map (·.id)).Sublist
        (((siblings f i).map (·.id)).flatMap (f.forest.subtree fuel)) := by
    intro fuel hfuel
    refine sublist_flatMap fun j hj => ?_
    obtain ⟨c, hc, rfl⟩ := List.mem_map.1 hj
    have hcl := (mem_siblings.1 hc).1
    exact (mem_subtree hf he hcl (hfuel c hc)).2 ⟨c, self_mem_within hf he hcl, rfl⟩
  cases i with
  | none =>
    rw [preorder_eq]
    exact hself _ fun c _ => length_within_le c
  | some j =>
    obtain ⟨p, hp, rfl⟩ := hi j rfl
    obtain ⟨fuel, s, t, hfuel, hst⟩ := exists_subtree_split hf he hp
    obtain ⟨fuel, rfl⟩ : ∃ k, fuel = k + 1 := Nat.exists_eq_succ_of_ne_zero fun h => by
      have := List.length_pos_of_mem (self_mem_within hf he hp)
      omega
    have := hself fuel fun c hc => (length_within_child hf he hp hfuel c hc).2
    rw [hst, subtree, children_eq]
    refine this.trans (.trans ?_ (List.sublist_append_right ..))
    exact (List.sublist_append_left ..).cons _

theorem precedes_siblings_iff (hl : l ∈ f.forest.loops) (hm : m ∈ f.forest.loops)
    (hpar : l.parent? = m.parent?) : Precedes f.forest.preorder l.id m.id ↔
      Precedes (Cfg.ofFunc f).order l.header m.header := by
  have hids := nodup_preorder hf he
  have hheaders := Cfg.nodup_order hf he
  have hsub := @siblings_sublist f e hf he l.parent? fun j hj => by
    obtain ⟨p, hp, hid, -⟩ := exists_parent hf he hl hj
    exact ⟨p, hp, hid⟩
  have hboth : ∀ {a b}, Precedes (siblings f l.parent?) a b →
      Precedes f.forest.preorder a.id b.id ∧ Precedes (Cfg.ofFunc f).order a.header b.header := by
    intro a b h
    refine ⟨(h.map (·.id)).mono hsub, ?_⟩
    exact ((h.mono List.filter_sublist).map (·.header)).mono (headers_sublist f)
  by_cases hlm : l = m
  · subst hlm
    exact ⟨fun h => absurd rfl (h.ne hids), fun h => absurd rfl (h.ne hheaders)⟩
  · rcases Precedes.total (mem_siblings.2 ⟨hl, rfl⟩) (mem_siblings.2 ⟨hm, hpar.symm⟩) hlm with h | h
    · exact ⟨fun _ => (hboth h).2, fun _ => (hboth h).1⟩
    · have h := hboth h
      exact ⟨fun h' => absurd h' (h.1.asymm hids), fun h' => absurd h' (h.2.asymm hheaders)⟩

theorem inPreorder : InPreorder f.forest (Cfg.ofFunc f).order where
  tours := tours_preorder hf he
  mem _ := mem_preorder hf he
  once := nodup_preorder hf he
  parents _ hl _ := precedes_parent hf he hl
  contiguous _ hl := exists_contiguous hf he hl
  siblings _ ha _ hb := precedes_siblings_iff hf he ha hb

end

/-- The loops of a function are a forest, whatever its edges. -/
theorem nested_inPreorder (hf : f.InArena) :
    Nested f.forest ∧ InPreorder f.forest (Cfg.ofFunc f).order := by
  cases he : f.entry? with
  | none =>
    have hn : f.forest = ⟨[]⟩ := congrArg LoopForest.mk (loops_eq_nil he)
    have hp : (⟨[]⟩ : LoopForest).preorder = [] := rfl
    have hs : ∀ P l, ¬ Loop.Smallest ⟨[]⟩ P l := fun _ _ h => List.not_mem_nil h.mem
    rw [hn]
    constructor
    · constructor <;> simp [children, loopFor?, depthsInOnePass, hs]
    · refine ⟨.done, ?_, ?_, ?_, ?_, ?_⟩ <;> simp [hp]
  | some e => exact ⟨nested hf he, inPreorder hf he⟩

/-- A loop around two others, the second of them around one more, and a loop behind. -/
def nest : Func := .build "f" do
  discard <| Build.countedLoop "i" (.const 0) (.const 4) 1 fun _ => do
    discard <| Build.countedLoop "j" (.const 0) (.const 4) 1 fun _ => pure ()
    discard <| Build.countedLoop "k" (.const 0) (.const 4) 1 fun _ => do
      discard <| Build.countedLoop "l" (.const 0) (.const 4) 1 fun _ => pure ()
  discard <| Build.countedLoop "m" (.const 0) (.const 4) 1 fun _ => pure ()
  discard <| Build.emit (.ret none)

theorem inArena_nest : nest.InArena := .of_layout (by decide +kernel) (by decide +kernel)

theorem nested_inPreorder_nest : nest.InArena ∧
    Nested nest.forest ∧ InPreorder nest.forest (Cfg.ofFunc nest).order :=
  ⟨inArena_nest, nested_inPreorder inArena_nest⟩

example : nest.forest.preorder = [⟨0⟩, ⟨2⟩, ⟨3⟩, ⟨4⟩, ⟨1⟩] ∧
    nest.forest.preorder.map nest.forest.depth = [1, 2, 2, 3, 1] := by
  decide +kernel

end LoopForest

end LoopFusion
