import LoopFusion.Proofs.Guarded.IdomTable

/-!
The table of immediate dominators of any graph whose successor and predecessor rows say the same.
There are no more passes than nodes and one, no climb between two nodes comes to a node without an
entry, and from every node with an entry the entries lead to the root.
-/

namespace LoopFusion.Guarded

open LoopFusion.Flow Flow.Parents DomTree

/-- The rows of one table are the columns of the other. -/
structure Inverse (succs preds : Array (List BlockId)) : Prop where
  size : preds.size = succs.size
  mem_iff : ∀ a b : BlockId, b ∈ succs[a.index]?.getD [] ↔ a ∈ preds[b.index]?.getD []

abbrev graph (succs preds : Array (List BlockId)) (root : BlockId) : Rooted BlockId :=
  ⟨root, fun b => succs[b.index]?.getD [], fun b => preds[b.index]?.getD [], succs.size + 1⟩

variable {succs preds : Array (List BlockId)} {root a b : BlockId}

theorem lt_of_mem_row {t : Array (List BlockId)} {i : Nat} (h : b ∈ t[i]?.getD []) :
    i < t.size := by
  by_contra hn
  rw [Array.getElem?_eq_none (by omega)] at h
  cases h

namespace Inverse

variable (h : Inverse succs preds)

include h

theorem lt_of_succ (hb : b ∈ succs[a.index]?.getD []) : b.index < succs.size :=
  h.size ▸ lt_of_mem_row ((h.mem_iff a b).1 hb)

theorem lt_of_pred (ha : a ∈ preds[b.index]?.getD []) : a.index < succs.size :=
  lt_of_mem_row ((h.mem_iff a b).2 ha)

theorem succs_lt (i : Nat) (row : List BlockId) (hrow : succs[i]? = some row) :
    ∀ s ∈ row, s.index < succs.size := by
  intro s hs
  apply h.lt_of_succ (a := ⟨i⟩)
  rwa [hrow]

theorem preds_row (hb : b.index < succs.size) : ∃ row, preds[b.index]? = some row ∧
    preds[b.index]?.getD [] = row ∧ ∀ p ∈ row, p.index < succs.size := by
  have hrow : preds[b.index]? = some (preds[b.index]?.getD []) := by
    rw [Array.getElem?_eq_getElem (h.size ▸ hb), Option.getD_some]
  exact ⟨_, hrow, rfl, fun p hp => h.lt_of_pred hp⟩

theorem regular (hr : root.index < succs.size) :
    (graph succs preds root).Regular ((List.range succs.size).map BlockId.mk) := by
  have hmem : ∀ b : BlockId, b.index < succs.size → b ∈ (List.range succs.size).map BlockId.mk :=
    fun b hb => List.mem_map.2 ⟨b.index, List.mem_range.2 hb, rfl⟩
  constructor
  · exact hmem root hr
  · exact fun a _ b hb => hmem b (h.lt_of_succ hb)
  · simp
  · exact fun a b _ _ => (h.mem_iff b a).symm

end Inverse

/-! What the passes start from. -/

/-- The nodes that are reached with the root last, their numbers, and the table in which the root
alone has an entry. -/
structure Start (succs : Array (List BlockId)) (root : BlockId) (order : List BlockId)
    (num : Array Nat) (idom : Array (Option BlockId)) : Prop where
  found : postorder succs root = some order
  numbered : fill (Array.replicate succs.size (UInt64.size - 1)) order.zipIdx = some num
  blank : put (Array.replicate succs.size none) root.index (some root) = some idom

theorem Start.unique {order order' : List BlockId} {num num' : Array Nat}
    {idom idom' : Array (Option BlockId)} (h : Start succs root order num idom)
    (h' : Start succs root order' num' idom') : order = order' ∧ num = num' ∧ idom = idom' := by
  obtain rfl := Option.some.inj (h.found.symm.trans h'.found)
  exact ⟨rfl, Option.some.inj (h.numbered.symm.trans h'.numbered),
    Option.some.inj (h.blank.symm.trans h'.blank)⟩

section Graph

variable (h : Inverse succs preds) (hr : root.index < succs.size)

include h hr

theorem lt_of_mem_order (hb : b ∈ orderOf (graph succs preds root)) : b.index < succs.size := by
  rcases ((mem_order (h.regular hr)).1 hb).cases_tail with rfl | ⟨a, -, hab⟩
  · exact hr
  · exact h.lt_of_succ hab

theorem exists_start : ∃ num idom,
    Start succs root (orderOf (graph succs preds root)).reverse num idom ∧
      Numbered (orderOf (graph succs preds root)) succs.size num ∧
      idom = (Array.replicate succs.size none).setIfInBounds root.index (some root) := by
  have hg := h.regular hr
  have hn := nodup_order hg
  have hlt : ∀ b ∈ orderOf (graph succs preds root), b.index < succs.size := fun b =>
    lt_of_mem_order h hr
  obtain ⟨num, hfill, -, -, hat⟩ := fill_zipIdx (List.nodup_reverse.2 hn)
    (t := Array.replicate succs.size (UInt64.size - 1)) (by simpa using hlt) id
  refine ⟨num, _, ⟨postorder_spec h.succs_lt hr (explores_reversePostorder hg), ?_, ?_⟩,
    ⟨hn, hlt, fun i b hb => ?_⟩, rfl⟩
  · simpa using hfill
  · exact put_eq_some (by rwa [Array.size_replicate])
  · have hi := (List.getElem?_eq_some_iff.1 hb).1
    apply hat
    rw [List.getElem?_reverse (by omega), ← hb]
    apply congrArg
    omega

theorem shows_initial : Shows (orderOf (graph succs preds root)) succs.size
    (.initial (orderOf (graph succs preds root)).length)
    ((Array.replicate succs.size none).setIfInBounds root.index (some root)) := by
  have hzero : (orderOf (graph succs preds root))[0]? = some root := order_zero (h.regular hr)
  have hpos := (List.getElem?_eq_some_iff.1 hzero).1
  have hlt : root.index < (Array.replicate succs.size (none : Option BlockId)).size := by
    rwa [Array.size_replicate]
  have hne : ∀ {b : BlockId}, b ≠ root → b.index < succs.size →
      ((Array.replicate succs.size none).setIfInBounds root.index (some root))[b.index]? =
        some none := by
    intro b hb hbm
    rw [getElem?_setIfInBounds hlt, if_neg fun hi => hb (congrArg BlockId.mk hi),
      Array.getElem?_replicate, if_pos hbm]
  constructor
  · rw [Array.size_setIfInBounds, Array.size_replicate]
  · intro i b hb
    rw [parent?_initial hpos]
    by_cases hi : i = 0
    · subst i
      obtain rfl := Option.some.inj (hzero.symm.trans hb)
      rw [getElem?_setIfInBounds hlt, if_pos rfl, if_pos rfl, Option.bind_some, hb]
    · rw [if_neg hi, Option.bind_none]
      refine hne ?_ (lt_of_mem_order h hr (List.mem_of_getElem? hb))
      rintro rfl
      have := (List.getElem?_inj hpos (nodup_order (h.regular hr))).1 (hzero.trans hb.symm)
      omega
  · intro b hb hbm
    refine hne ?_ hbm
    rintro rfl
    exact hb (List.mem_of_getElem? hzero)

theorem arcs_row (j : Nat) (b : BlockId) (hb : (orderOf (graph succs preds root))[j]? = some b) :
    ∃ row : List BlockId, preds[b.index]? = some row ∧ (∀ p ∈ row, p.index < succs.size) ∧
      (arcsOf (graph succs preds root))[j]?.getD [] =
        row.filterMap (orderOf (graph succs preds root)).idxOf? := by
  obtain ⟨row, hrow, heq, hlt⟩ := h.preds_row (lt_of_mem_order h hr (List.mem_of_getElem? hb))
  refine ⟨row, hrow, hlt, ?_⟩
  simp [numberedPreds, hb, heq]

/-- The last of the passes leaves what the tree of numbered nodes shows. -/
theorem passes_spec : ∃ num first n last idom,
    Start succs root (orderOf (graph succs preds root)).reverse num first ∧
      n ≤ (orderOf (graph succs preds root)).length ∧
      Steps (sweep num preds root (orderOf (graph succs preds root))) first n last ∧
      sweep num preds root (orderOf (graph succs preds root)) last = some (.inl idom) ∧
      Shows (orderOf (graph succs preds root)) succs.size
        (ofRooted (graph succs preds root)).parents idom := by
  have hg := h.regular hr
  have hord := ordered hg
  have hfirst : Level (arcsOf (graph succs preds root)) _ 0 _ := level_initial hord.pos
  obtain ⟨num, first, hstart, hn, rfl⟩ := exists_start h hr
  obtain ⟨n, last, idom, hle, hsteps, hlast, hs⟩ := settle_eq hn (order_zero hg) (arcs_row h hr)
    hord hfirst (Nat.zero_add _).ge (shows_initial h hr)
  -- more passes than there are nodes change nothing
  have hmany := Nat.le_mul_self (orderOf (graph succs preds root)).length
  have hsame := (hfirst.settle hord _).eq hord (level hg)
    (by omega : _ ≤ 0 + ((orderOf (graph succs preds root)).length + 1)) (by omega)
  rw [hsame] at hs
  exact ⟨num, _, n, last, idom, hstart, hle, hsteps, hlast, hs⟩

end Graph

theorem Start.compute_eq {order : List BlockId} {num : Array Nat}
    {first last idom : Array (Option BlockId)} {n : Nat} (h : Start succs root order num first)
    (hsteps : Steps (sweep num preds root order.reverse) first n last)
    (hlast : sweep num preds root order.reverse last = some (.inl idom)) :
    IdomTable.compute succs preds root = some ⟨idom, root⟩ := by
  have hsettle : settle num preds root order.reverse first = some idom :=
    (loop_of_steps hsteps).trans (loop_done hlast)
  simp only [IdomTable.compute, h.found, h.numbered, h.blank, hsettle, Option.bind_eq_bind,
    Option.bind_some]
  rfl

/-! The climbs of the passes. -/

/-- `a` is `b`, or the entries lead there from `b`. -/
inductive Above (idom : Array (Option BlockId)) (a : BlockId) : BlockId → Prop
  | refl : Above idom a a
  | up {b c : BlockId} : idom[b.index]? = some (some c) → Above idom a c → Above idom a b

abbrev HasEntry (idom : Array (Option BlockId)) (b : BlockId) : Prop :=
  ∃ c, idom[b.index]? = some (some c)

/-- The passes climb from `p` and `q` while the table is `idom`: `p` is a predecessor with an entry
of some node, and `q` is what the predecessors in front of `p` have led to. -/
inductive Calls (succs preds : Array (List BlockId)) (root : BlockId) (num : Array Nat)
    (idom : Array (Option BlockId)) (p q : BlockId) : Prop
  | call {order before after front back : List BlockId} {first table : Array (Option BlockId)}
    {n : Nat} {b : BlockId} {flag : Bool} :
    Start succs root order num first →
    Steps (sweep num preds root order.reverse) first n table →
    order.reverse = before ++ b :: after →
    before.foldlM (update num preds root) (table, false) = some (idom, flag) →
    b ≠ root → preds[b.index]? = some (front ++ p :: back) →
    front.foldlM (gather num idom) none = some (some q) → HasEntry idom p →
    Calls succs preds root num idom p q

/-- The climb ends at a node above both, and neither end of it is ever without an entry. -/
structure Meets (num : Array Nat) (idom : Array (Option BlockId)) (p q : BlockId) : Prop where
  ends : ∃ c, intersect num idom p q = some c ∧ Above idom c p ∧ Above idom c q
  entries : ∀ n x y, Steps (approach num idom) (p, q) n (x, y) → HasEntry idom x ∧ HasEntry idom y

section Shown

variable {order : List BlockId} {m i j k : Nat} {num : Array Nat} {t : Parents}
  {idom : Array (Option BlockId)} {p q x y : BlockId}

/-- A node that has an entry stands in the order. -/
structure Stands (order : List BlockId) (t : Parents) (i : Nat) (b : BlockId) : Prop where
  place : order[i]? = some b
  placed : t.Placed i

theorem Stands.of_entry (hs : Shows order m t idom) (hp : HasEntry idom p) (hlt : p.index < m) :
    ∃ i, Stands order t i p := by
  obtain ⟨c, hc⟩ := hp
  by_cases hmem : p ∈ order
  · obtain ⟨i, hi⟩ := List.mem_iff_getElem?.1 hmem
    refine ⟨i, hi, ?_⟩
    rw [hs.entry i p hi] at hc
    obtain ⟨j, hj, -⟩ := Option.bind_eq_some_iff.1 (Option.some.inj hc)
    rw [Placed, hj, Option.isSome_some]
  · rw [hs.blank p hmem hlt] at hc
    cases hc

section

variable (ht : Tree t order.length) (hs : Shows order m t idom)

include ht hs

theorem Stands.parent (hp : Stands order t i p) : ∃ c j, t.parent? i = some j ∧
    idom[p.index]? = some (some c) ∧ Stands order t j c := by
  obtain ⟨j, hj⟩ := Option.isSome_iff_exists.1 hp.placed
  obtain ⟨c, hc, hentry⟩ := hs.parent ht hp.place hj
  refine ⟨c, j, hj, hentry, hc, ?_⟩
  by_cases hi : i = 0
  · subst i
    rw [ht.root] at hj
    obtain rfl := Option.some.inj hj
    exact hp.placed
  · exact (ht.below i j hi hj).2

theorem Stands.entry (hp : Stands order t i p) : HasEntry idom p := by
  obtain ⟨c, -, -, hc, -⟩ := hp.parent ht hs
  exact ⟨c, hc⟩

theorem Stands.above (hp : Stands order t i p) (ha : Anc t j i) (hq : order[j]? = some q) :
    Above idom q p := by
  induction ha generalizing p with
  | refl =>
    obtain rfl := Option.some.inj (hq.symm.trans hp.place)
    exact .refl
  | @up i k _ hk _ ih =>
    obtain ⟨c, k', hk', hentry, hc⟩ := hp.parent ht hs
    rw [hk] at hk'
    obtain rfl := Option.some.inj hk'
    exact .up hentry (ih hc)

variable (hn : Numbered order m num)

include hn

theorem Stands.approach {s : BlockId × BlockId} (hx : Stands order t i x) (hy : Stands order t j y)
    (h : approach num idom (x, y) = some (.inr s)) :
    ∃ i' j', Stands order t i' s.1 ∧ Stands order t j' s.2 := by
  obtain ⟨c, i', -, hc, hi'⟩ := hx.parent ht hs
  obtain ⟨d, j', -, hd, hj'⟩ := hy.parent ht hs
  by_cases hxy : x = y
  · simp [Guarded.approach, hxy] at h
  simp only [Guarded.approach, if_neg hxy, hn.num i x hx.place, hn.num j y hy.place, hc, hd,
    Option.bind_eq_bind, Option.bind_some] at h
  split at h
  · obtain rfl := Sum.inr.inj (Option.some.inj h)
    exact ⟨i', j, hi', hy⟩
  split at h
  · obtain rfl := Sum.inr.inj (Option.some.inj h)
    exact ⟨i, j', hx, hj'⟩
  · obtain rfl := Sum.inr.inj (Option.some.inj h)
    exact ⟨i, j, hx, hy⟩

theorem Stands.meets (hp : Stands order t i p) (hq : Stands order t j q) : Meets num idom p q := by
  constructor
  · have hclimb := climb_meet ht (i + j) i j le_rfl hp.placed hq.placed
    obtain ⟨hi, hj, -⟩ := meet_spec ht (i + j) i j le_rfl hp.placed hq.placed
    obtain ⟨c, hc, hmeet⟩ := intersect_eq hn ht hs hclimb hp.place hq.place
    exact ⟨c, hmeet, hp.above ht hs hi hc, hq.above ht hs hj hc⟩
  · have hstands : ∀ n s, Steps (Guarded.approach num idom) (p, q) n s →
        ∃ i j, Stands order t i s.1 ∧ Stands order t j s.2 := by
      intro n s hsteps
      induction hsteps with
      | zero => exact ⟨i, j, hp, hq⟩
      | succ _ hlast ih =>
        obtain ⟨i, j, hx, hy⟩ := ih
        exact hx.approach ht hs hn hy hlast
    intro n x y hsteps
    obtain ⟨i, j, hx, hy⟩ := hstands n (x, y) hsteps
    exact ⟨hx.entry ht hs, hy.entry ht hs⟩

end

end Shown

section Graph

variable (h : Inverse succs preds) (hr : root.index < succs.size)

include h hr

theorem Shows.passes {num : Array Nat} {idom idom' : Array (Option BlockId)} {n k : Nat}
    {t : Parents} (hn : Numbered (orderOf (graph succs preds root)) succs.size num)
    (hk : Level (arcsOf (graph succs preds root)) (orderOf (graph succs preds root)).length k t)
    (hs : Shows (orderOf (graph succs preds root)) succs.size t idom)
    (hsteps : Steps (sweep num preds root (orderOf (graph succs preds root))) idom n idom') :
    ∃ k' t', Level (arcsOf (graph succs preds root)) (orderOf (graph succs preds root)).length k' t' ∧
      Shows (orderOf (graph succs preds root)) succs.size t' idom' := by
  have hg := h.regular hr
  induction hsteps with
  | zero => exact ⟨k, t, hk, hs⟩
  | succ _ hlast ih =>
    obtain ⟨k, t, hk, hs⟩ := ih
    obtain ⟨idom₁, hs₁, hpass⟩ := pass_eq hn (order_zero hg) (arcs_row h hr) (ordered hg) hk hs
    refine ⟨k + 1, _, hk.pass (ordered hg), ?_⟩
    rw [sweep, hpass, Option.bind_eq_bind, Option.bind_some] at hlast
    split at hlast
    · obtain rfl := Sum.inr.inj (Option.some.inj hlast)
      exact hs₁
    · cases hlast

/-- In the middle of a pass the table is still one of a tree, in which both ends have a place. -/
theorem Calls.meets {num : Array Nat} {idom : Array (Option BlockId)} {p q : BlockId}
    (hc : Calls succs preds root num idom p q) : Meets num idom p q := by
  have hg := h.regular hr
  have hord := ordered hg
  have hzero : (orderOf (graph succs preds root))[0]? = some root := order_zero hg
  obtain ⟨num', first', hstart', hn, hblank⟩ := exists_start h hr
  cases hc with
  | @call _ before after front back _ table n b flag hstart hsteps hsplit hbefore hb hrow hfront hp =>
    obtain ⟨rfl, rfl, rfl⟩ := hstart.unique hstart'
    rw [List.reverse_reverse] at hsteps hsplit
    subst hblank
    obtain ⟨k, t, hk, hs⟩ := Shows.passes h hr hn (level_initial hord.pos) (shows_initial h hr) hsteps
    -- the pass has left the root as it is and moved the nodes of `before` behind it
    cases before with
    | nil =>
      rw [hsplit] at hzero
      exact absurd (Option.some.inj hzero) hb
    | cons r before =>
      obtain rfl : r = root := by
        rw [hsplit] at hzero
        exact Option.some.inj hzero
      rw [List.foldlM_cons, update_root, Option.bind_eq_bind, Option.bind_some] at hbefore
      have hdrop : (orderOf (graph succs preds r)).drop 1 = before ++ b :: after := by
        rw [hsplit]
        rfl
      have hlen : 1 + before.length ≤ (orderOf (graph succs preds r)).length := by
        rw [hsplit, List.length_append, List.length_cons, Nat.add_comm]
        exact Nat.le_add_right _ _
      obtain ⟨idom', hs', hfold⟩ :=
        foldlM_update hn hzero (arcs_row h hr) hord hk.stage hs Nat.one_pos hdrop false
      have ht := (hk.stage.updates hord Nat.one_pos before.length hlen).tree
      obtain rfl := congrArg Prod.fst (Option.some.inj (hfold.symm.trans hbefore))
      have hlt : ∀ x ∈ front ++ p :: back, x.index < succs.size := by
        intro x hx
        apply h.lt_of_pred (b := b)
        rwa [hrow]
      obtain ⟨i, hi⟩ := Stands.of_entry hs' hp (hlt p (by simp))
      obtain ⟨hmet, -⟩ := foldlM_gather hn ht hs' (gather_common? ht _) nofun
        fun x hx => hlt x (List.mem_append_left _ hx)
      rw [Option.bind_none, hfront] at hmet
      obtain ⟨j, hj, hq⟩ := Option.bind_eq_some_iff.1 (Option.some.inj hmet).symm
      have hplaced := ((met_common? ht _).some j hj).placed ht
      exact hi.meets ht hs' hn ⟨hq, hplaced⟩

end Graph

/-! The way up. -/

/-- The nodes that are reached have entries, and the entries of each lead to the root: the walk from
it ends there, unless it meets the node it looks for. -/
structure IdomTable.Climbs (t : IdomTable) (order : List BlockId) : Prop where
  entry_iff : ∀ b, HasEntry t.idom b ↔ b ∈ order
  root : ∀ b ∈ order, Above t.idom t.root b
  entries : ∀ a, ∀ b ∈ order, ∀ n c, Steps (t.climb a) b n c → HasEntry t.idom c
  ends : ∀ a, ∀ b ∈ order, ∃ n c, Steps (t.climb a) b n c ∧ (c = a ∨ c = t.root)
  answers : ∀ a b, ∃ r, t.dominates a b = some r

section Up

variable {order : List BlockId} {m i j : Nat} {t : Parents} {idom : Array (Option BlockId)}
  (ht : Tree t order.length) (hs : Shows order m t idom)

include ht hs

theorem Stands.climb {c : BlockId} (hb : Stands order t i b)
    (h : IdomTable.climb ⟨idom, root⟩ a b = some (.inr c)) : ∃ j, Stands order t j c := by
  obtain ⟨d, j, -, hd, hj⟩ := hb.parent ht hs
  simp only [IdomTable.climb, hd, Option.bind_eq_bind, Option.bind_some] at h
  split at h
  · cases h
  split at h
  · cases h
  · obtain rfl := Sum.inr.inj (Option.some.inj h)
    exact ⟨j, hj⟩

theorem Stands.ends (hzero : order[0]? = some root) (hb : Stands order t i b) (a : BlockId) :
    ∃ n c, Steps (IdomTable.climb ⟨idom, root⟩ a) b n c ∧ (c = a ∨ c = root) := by
  induction i using Nat.strong_induction_on generalizing b with
  | _ i ih =>
    by_cases hba : b = a
    · exact ⟨0, b, .zero, .inl hba⟩
    by_cases hbr : b = root
    · exact ⟨0, b, .zero, .inr hbr⟩
    obtain ⟨d, j, hj, hd, hstands⟩ := hb.parent ht hs
    have hi : i ≠ 0 := by
      rintro rfl
      exact hbr (Option.some.inj (hb.place.symm.trans hzero))
    have hnext : IdomTable.climb ⟨idom, root⟩ a b = some (.inr d) := by
      simp [IdomTable.climb, hba, hbr, hd]
    obtain ⟨n, c, hsteps, hc⟩ := ih j (ht.below i j hi hj).1 hstands
    exact ⟨n + 1, c, hsteps.head hnext, hc⟩

end Up

section Graph

variable (h : Inverse succs preds) (hr : root.index < succs.size)
  {idom : Array (Option BlockId)}
  (hs : Shows (orderOf (graph succs preds root)) succs.size (ofRooted (graph succs preds root)).parents
    idom)

include h hr

theorem stands (hb : b ∈ orderOf (graph succs preds root)) :
    ∃ i, Stands (orderOf (graph succs preds root)) (ofRooted (graph succs preds root)).parents i b := by
  obtain ⟨i, hi⟩ := List.mem_iff_getElem?.1 hb
  have hlevel := level (h.regular hr)
  refine ⟨i, hi, hlevel.sharp.placed i (Nat.succ_pos _) ?_⟩
  rw [hlevel.tree.size]
  exact (List.getElem?_eq_some_iff.1 hi).1

include hs

theorem hasEntry_iff (b : BlockId) :
    HasEntry idom b ↔ b ∈ orderOf (graph succs preds root) := by
  constructor
  · rintro ⟨c, hc⟩
    have hlt : b.index < succs.size := hs.size ▸ (Array.getElem?_eq_some_iff.1 hc).1
    obtain ⟨i, hi⟩ := Stands.of_entry hs ⟨c, hc⟩ hlt
    exact List.mem_of_getElem? hi.place
  · intro hb
    obtain ⟨i, hi⟩ := stands h hr hb
    exact hi.entry (level (h.regular hr)).tree hs

theorem dominates_eq (a b : BlockId) : IdomTable.dominates ⟨idom, root⟩ a b =
    some ((ofRooted (graph succs preds root)).dominates a b) := by
  have hg := h.regular hr
  have ht := (level hg).tree
  have hblank : ∀ b, idom[b.index]?.join.isNone ↔ b ∉ orderOf (graph succs preds root) := by
    intro b
    rw [← hasEntry_iff h hr hs, HasEntry]
    generalize idom[b.index]? = entry
    rcases entry with _ | _ | c <;> simp
  rw [IdomTable.dominates, DomTree.dominates, number?, number?, order_ofRooted]
  simp only [hblank]
  by_cases hb : b ∈ orderOf (graph succs preds root)
  case neg =>
    have hnone : (orderOf (graph succs preds root)).idxOf? b = none := List.idxOf?_eq_none_iff.2 hb
    rw [if_pos (.inl hb), hnone]
    cases (orderOf (graph succs preds root)).idxOf? a <;> rfl
  by_cases ha : a ∈ orderOf (graph succs preds root)
  case neg =>
    have hnone : (orderOf (graph succs preds root)).idxOf? a = none := List.idxOf?_eq_none_iff.2 ha
    rw [if_pos (.inr ha), hnone]
  obtain ⟨i, hi⟩ := List.mem_iff_getElem?.1 ha
  obtain ⟨j, hj⟩ := List.mem_iff_getElem?.1 hb
  have hjn := (List.getElem?_eq_some_iff.1 hj).1
  obtain ⟨num, -, -, hn, -⟩ := exists_start h hr
  have hpl : ∀ i < (orderOf (graph succs preds root)).length,
      (ofRooted (graph succs preds root)).parents.Placed i := by
    intro i hi
    obtain ⟨i', hi'⟩ := stands h hr (List.getElem_mem hi)
    exact hn.inj hi'.place (List.getElem?_eq_getElem hi) ▸ hi'.placed
  rw [if_neg (by simp [ha, hb]), (idxOf?_order hg).2 hi, (idxOf?_order hg).2 hj]
  exact climbTo_eq hn ht hs (order_zero hg) hjn hpl hi hj

theorem climbs : IdomTable.Climbs ⟨idom, root⟩ (orderOf (graph succs preds root)) := by
  have hg := h.regular hr
  have ht := (level hg).tree
  constructor
  · exact hasEntry_iff h hr hs
  · intro b hb
    obtain ⟨i, hi⟩ := stands h hr hb
    exact hi.above ht hs (anc_zero ht i hi.placed) (order_zero hg)
  · intro a b hb n c hsteps
    have hstands : ∃ j, Stands (orderOf (graph succs preds root))
        (ofRooted (graph succs preds root)).parents j c := by
      induction hsteps with
      | zero => exact stands h hr hb
      | succ _ hlast ih =>
        obtain ⟨j, hj⟩ := ih
        exact hj.climb ht hs hlast
    obtain ⟨j, hj⟩ := hstands
    exact hj.entry ht hs
  · intro a b hb
    obtain ⟨i, hi⟩ := stands h hr hb
    exact hi.ends ht hs (order_zero hg) a
  · intro a b
    exact ⟨_, dominates_eq h hr hs a b⟩

end Graph

/-- The table of immediate dominators comes to an end on any graph: after at most one pass more than
there are nodes to reach, with every climb of the passes and every walk up at its goal. -/
theorem IdomTable.compute_ends (h : Inverse succs preds) (hr : root.index < succs.size) :
    (∃ order num first n last t, Start succs root order num first ∧ n ≤ order.length ∧
      Steps (sweep num preds root order.reverse) first n last ∧
      sweep num preds root order.reverse last = some (.inl t.idom) ∧
      IdomTable.compute succs preds root = some t ∧ t.root = root ∧ t.Climbs order.reverse) ∧
    ∀ num idom p q, Calls succs preds root num idom p q → Meets num idom p q := by
  constructor
  · obtain ⟨num, first, n, last, idom, hstart, hle, hsteps, hlast, hs⟩ := passes_spec h hr
    have hclimbs := climbs h hr hs
    rw [← List.reverse_reverse (orderOf _)] at hsteps hlast hclimbs
    refine ⟨_, num, first, n, last, ⟨idom, root⟩, hstart, ?_, hsteps, hlast, ?_, rfl, hclimbs⟩
    · rwa [List.length_reverse]
    · exact hstart.compute_eq hsteps hlast
  · intro num idom p q hc
    exact hc.meets h hr

/-- Two nodes that lead to each other, with edges to both from outside. -/
def crossing : Array (List BlockId) × Array (List BlockId) :=
  (#[[⟨1⟩, ⟨2⟩], [⟨2⟩], [⟨1⟩]], #[[], [⟨0⟩, ⟨2⟩], [⟨0⟩, ⟨1⟩]])

theorem inverse_crossing : Inverse crossing.1 crossing.2 := by
  constructor
  · rfl
  · rintro ⟨_ | _ | _ | a⟩ ⟨_ | _ | _ | b⟩ <;> simp [crossing]

theorem start_crossing : Start crossing.1 ⟨0⟩ [⟨2⟩, ⟨1⟩, ⟨0⟩] #[2, 1, 0] #[some ⟨0⟩, none, none] := by
  have hroot : (⟨0⟩ : BlockId).index < crossing.1.size := by decide
  obtain ⟨num, first, hstart, -⟩ := exists_start inverse_crossing hroot
  have horder : (orderOf (graph crossing.1 crossing.2 ⟨0⟩)).reverse = [⟨2⟩, ⟨1⟩, ⟨0⟩] := by
    decide +kernel
  refine ⟨horder ▸ hstart.found, ?_, ?_⟩
  · decide +kernel
  · decide +kernel

/-- In the first pass the node 2 is the first with two predecessors that have entries. -/
theorem calls_crossing : Calls crossing.1 crossing.2 ⟨0⟩ #[2, 1, 0]
    #[some ⟨0⟩, some ⟨0⟩, none] ⟨1⟩ ⟨0⟩ := by
  have hsplit : [⟨2⟩, ⟨1⟩, ⟨0⟩].reverse = [⟨0⟩, ⟨1⟩] ++ (⟨2⟩ : BlockId) :: [] := rfl
  have hrow : crossing.2[2]? = some ([⟨0⟩] ++ ⟨1⟩ :: []) := rfl
  apply Calls.call start_crossing .zero hsplit _ (by decide) hrow _ ⟨⟨0⟩, rfl⟩
  · exact true
  · simp [update, gather, put, crossing]
  · simp [gather]

theorem compute_ends_crossing : Inverse crossing.1 crossing.2 ∧
    (∃ t, IdomTable.compute crossing.1 crossing.2 ⟨0⟩ = some t ∧ t.Climbs [⟨0⟩, ⟨1⟩, ⟨2⟩]) ∧
    Meets #[2, 1, 0] #[some ⟨0⟩, some ⟨0⟩, none] ⟨1⟩ ⟨0⟩ := by
  have hroot : (⟨0⟩ : BlockId).index < crossing.1.size := by decide
  obtain ⟨hends, hmeets⟩ := IdomTable.compute_ends inverse_crossing hroot
  refine ⟨inverse_crossing, ?_, hmeets _ _ _ _ calls_crossing⟩
  obtain ⟨order, num, first, n, last, t, hstart, -, -, -, ht, -, hclimbs⟩ := hends
  obtain ⟨rfl, -, -⟩ := hstart.unique start_crossing
  exact ⟨t, ht, hclimbs⟩

end LoopFusion.Guarded
