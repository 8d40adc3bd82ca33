import LoopFusion.Proofs.Guarded.Tables

/-!
Immediate dominators in a table by block, with nothing but the table's own entries to end its
loops. It shows, block by block, what the table of numbered nodes shows, so every walk through it
stays among the blocks that are reached and comes to an end.
-/

namespace LoopFusion.Guarded

open LoopFusion.Flow Flow.Parents

/-- The root is its own parent; a block without an entry has no place yet. -/
structure IdomTable where
  idom : Array (Option BlockId)
  root : BlockId

/-- Climb from the one with the smaller number, unless they are one. -/
def approach (num : Array Nat) (idom : Array (Option BlockId)) :
    BlockId × BlockId → Option (BlockId ⊕ BlockId × BlockId)
  | (a, b) => do
    if a = b then return .inl a
    let i ← num[a.index]?
    let j ← num[b.index]?
    if i < j then
      match ← idom[a.index]? with
      | some c => return .inr (c, b)
      | none => return .inl b
    else if j < i then
      match ← idom[b.index]? with
      | some c => return .inr (a, c)
      | none => return .inl a
    else return .inr (a, b)

noncomputable def intersect (num : Array Nat) (idom : Array (Option BlockId)) (a b : BlockId) :
    Option BlockId :=
  loop (approach num idom) (a, b)

noncomputable def gather (num : Array Nat) (idom : Array (Option BlockId)) (best : Option BlockId)
    (p : BlockId) : Option (Option BlockId) := do
  match ← idom[p.index]?, best with
  | none, best => return best
  | some _, none => return some p
  | some _, some q => return some (← intersect num idom p q)

section

variable (num : Array Nat) (preds : Array (List BlockId)) (root : BlockId)

noncomputable def update (s : Array (Option BlockId) × Bool) (b : BlockId) :
    Option (Array (Option BlockId) × Bool) := do
  if b = root then return s
  let row ← preds[b.index]?
  let new ← row.foldlM (gather num s.1) none
  let old ← s.1[b.index]?
  if new.isSome ∧ old ≠ new then return (← put s.1 b.index new, true) else return s

/-- A pass over the order is the last one if nothing moved. -/
noncomputable def sweep (order : List BlockId) (idom : Array (Option BlockId)) :
    Option (Array (Option BlockId) ⊕ Array (Option BlockId)) := do
  let s ← order.foldlM (update num preds root) (idom, false)
  return if s.2 then .inr s.1 else .inl s.1

noncomputable def settle (order : List BlockId) (idom : Array (Option BlockId)) :
    Option (Array (Option BlockId)) :=
  loop (sweep num preds root order) idom

end

namespace IdomTable

noncomputable def compute (succs preds : Array (List BlockId)) (root : BlockId) :
    Option IdomTable := do
  let order ← postorder succs root
  let num ← fill (Array.replicate succs.size (UInt64.size - 1)) order.zipIdx
  let idom ← put (Array.replicate succs.size none) root.index (some root)
  return ⟨← settle num preds root order.reverse idom, root⟩

/-- Whether `cur` is the block looked for, or which one is next. -/
def climb (t : IdomTable) (a cur : BlockId) : Option (Bool ⊕ BlockId) := do
  if cur = a then return .inl true
  if cur = t.root then return .inl false
  match ← t.idom[cur.index]? with
  | some c => return .inr c
  | none => return .inl false

noncomputable def climbTo (t : IdomTable) (a cur : BlockId) : Option Bool := loop (t.climb a) cur

noncomputable def dominates (t : IdomTable) (a b : BlockId) : Option Bool :=
  if t.idom[b.index]?.join.isNone ∨ t.idom[a.index]?.join.isNone then some false
  else t.climbTo a b

end IdomTable

/-- Blocks below `m` in an order, each with its position from the end. -/
structure Numbered (order : List BlockId) (m : Nat) (num : Array Nat) : Prop where
  nodup : order.Nodup
  lt : ∀ b ∈ order, b.index < m
  num : ∀ i b, order[i]? = some b → num[b.index]? = some (order.length - 1 - i)

/-- The table by block says what the table by number says. -/
structure Shows (order : List BlockId) (m : Nat) (t : Parents) (idom : Array (Option BlockId)) :
    Prop where
  size : idom.size = m
  entry : ∀ i b, order[i]? = some b → idom[b.index]? = some ((t.parent? i).bind (order[·]?))
  blank : ∀ b, b ∉ order → b.index < m → idom[b.index]? = some none

variable {order row : List BlockId} {m i j k : Nat} {num : Array Nat} {t : Parents}
  {idom : Array (Option BlockId)} {a b root : BlockId} {best d : Option Nat}

namespace Numbered

variable (hn : Numbered order m num)

include hn

theorem inj (ha : order[i]? = some a) (hb : order[j]? = some a) : i = j := by
  have hlt := (List.getElem?_eq_some_iff.1 ha).1
  exact (List.getElem?_inj hlt hn.nodup).1 (ha.trans hb.symm)

theorem ne (ha : order[i]? = some a) (hb : order[j]? = some b) (hij : i ≠ j) : a ≠ b := by
  rintro rfl
  exact hij (hn.inj ha hb)

end Numbered

theorem Shows.parent (hs : Shows order m t idom) (ht : Tree t order.length)
    (ha : order[i]? = some a) (hp : t.parent? i = some j) :
    ∃ c, order[j]? = some c ∧ idom[a.index]? = some (some c) := by
  have hi := (List.getElem?_eq_some_iff.1 ha).1
  have hj : j < order.length := by
    by_cases hi0 : i = 0
    · subst i
      rw [ht.root] at hp
      exact Option.some.inj hp ▸ hi
    · exact (ht.below i j hi0 hp).1.trans hi
  have hc : order[j]? = some order[j] := List.getElem?_eq_getElem hj
  refine ⟨order[j], hc, ?_⟩
  rw [hs.entry i a ha, hp, Option.bind_some, hc]

section Run

variable (hn : Numbered order m num) (ht : Tree t order.length) (hs : Shows order m t idom)

include hn ht hs

theorem intersect_eq {i j c : Nat} (hc : Climb t i j c) (ha : order[i]? = some a)
    (hb : order[j]? = some b) : ∃ x, order[c]? = some x ∧ intersect num idom a b = some x := by
  -- the numbers of blocks go up towards the root, those of nodes go down
  induction hc generalizing a b with
  | met =>
    obtain rfl := Option.some.inj (ha.symm.trans hb)
    exact ⟨a, ha, loop_done (by simp [approach])⟩
  | @left i j c p hji hp _ ih =>
    obtain ⟨x, hx, hentry⟩ := hs.parent ht ha hp
    obtain ⟨y, hy, hrest⟩ := ih hx hb
    have hi := (List.getElem?_eq_some_iff.1 ha).1
    have hlt : order.length - 1 - i < order.length - 1 - j := by omega
    refine ⟨y, hy, (loop_next ?_).trans hrest⟩
    simp [approach, hn.ne ha hb hji.ne', hn.num i a ha, hn.num j b hb, hlt, hentry]
  | @right i j c p hij hp _ ih =>
    obtain ⟨x, hx, hentry⟩ := hs.parent ht hb hp
    obtain ⟨y, hy, hrest⟩ := ih ha hx
    have hj := (List.getElem?_eq_some_iff.1 hb).1
    have hlt : order.length - 1 - j < order.length - 1 - i := by omega
    refine ⟨y, hy, (loop_next ?_).trans hrest⟩
    simp [approach, hn.ne ha hb hij.ne, hn.num i a ha, hn.num j b hb, hlt, hlt.not_gt, hentry]

omit hn ht in
theorem gather_blank {p : BlockId} (hp : p ∉ order) (hm : p.index < m) (best : Option BlockId) :
    gather num idom best p = some best := by
  rw [gather, hs.blank p hp hm]
  rfl

omit hn ht in
theorem gather_unplaced {p : BlockId} (hi : order[i]? = some p) (hpar : t.parent? i = none)
    (best : Option BlockId) : gather num idom best p = some best := by
  rw [gather, hs.entry i p hi, hpar]
  rfl

omit hn in
theorem gather_first {p : BlockId} (hi : order[i]? = some p) (hpl : t.Placed i) :
    gather num idom none p = some (some p) := by
  obtain ⟨c, hc⟩ := Option.isSome_iff_exists.1 hpl
  obtain ⟨x, -, hentry⟩ := hs.parent ht hi hc
  rw [gather, hentry]
  rfl

theorem gather_meet {p : BlockId} {c q : Nat} (hi : order[i]? = some p) (hpl : t.Placed i)
    (hc : Climb t i q c) (hq : q < order.length) :
    gather num idom order[q]? p = some order[c]? ∧ c < order.length := by
  obtain ⟨c', hc'⟩ := Option.isSome_iff_exists.1 hpl
  obtain ⟨x, -, hentry⟩ := hs.parent ht hi hc'
  have hq' : order[q]? = some order[q] := List.getElem?_eq_getElem hq
  obtain ⟨y, hy, hmeet⟩ := intersect_eq hn ht hs hc hi hq'
  refine ⟨?_, (List.getElem?_eq_some_iff.1 hy).1⟩
  rw [gather, hentry, hq', hy]
  simp [hmeet]

theorem foldlM_gather (hg : Gather t best (row.filterMap order.idxOf?) d)
    (hbest : ∀ q, best = some q → q < order.length) (hrow : ∀ p ∈ row, p.index < m) :
    row.foldlM (gather num idom) (best.bind (order[·]?)) = some (d.bind (order[·]?)) ∧
      ∀ q, d = some q → q < order.length := by
  induction row generalizing best with
  | nil =>
    cases hg
    exact ⟨rfl, hbest⟩
  | cons p row ih =>
    rw [List.forall_mem_cons] at hrow
    rw [List.foldlM_cons]
    by_cases hp : p ∈ order
    · obtain ⟨i, hi⟩ := List.mem_iff_getElem?.1 hp
      have hlt := (List.getElem?_eq_some_iff.1 hi).1
      rw [List.filterMap_cons, (idxOf?_eq_some_of_nodup hn.nodup).2 hi] at hg
      cases hg with
      | skip hpar hg =>
        rw [gather_unplaced hs hi hpar]
        exact ih hg hbest hrow.2
      | first hpl hg =>
        rw [Option.bind_none, gather_first ht hs hi hpl, ← hi]
        exact ih hg (fun q hq => Option.some.inj hq ▸ hlt) hrow.2
      | meet hpl hc hg =>
        obtain ⟨hstep, hlt⟩ := gather_meet hn ht hs hi hpl hc (hbest _ rfl)
        rw [Option.bind_some, hstep]
        exact ih hg (fun z hz => Option.some.inj hz ▸ hlt) hrow.2
    · rw [List.filterMap_cons, List.idxOf?_eq_none_iff.2 hp] at hg
      rw [gather_blank hs hp hrow.1]
      exact ih hg hbest hrow.2

end Run

/-! One pass over the blocks is one pass over the numbers. -/

theorem parent?_update {arcs : Array (List Nat)} (hij : i ≠ j) :
    (Parents.update arcs t j).parent? i = t.parent? i := by
  rw [Parents.update]
  split
  · rw [parent?, Array.getElem?_setIfInBounds, if_neg hij.symm, parent?]
  · rfl

theorem parent?_updates {arcs : Array (List Nat)} {js : List Nat} (hi : i ∉ js) :
    (js.foldl (Parents.update arcs) t).parent? i = t.parent? i := by
  induction js generalizing t with
  | nil => rfl
  | cons j js ih =>
    rw [List.mem_cons, not_or] at hi
    rw [List.foldl_cons, ih hi.2, parent?_update hi.1]

theorem Shows.set {d : Nat} (hn : Numbered order m num) (ht : Tree t order.length)
    (hs : Shows order m t idom) (hb : order[j]? = some b) (ha : order[d]? = some a) :
    Shows order m (t.setIfInBounds j (some d)) (idom.setIfInBounds b.index (some a)) := by
  have hjn := (List.getElem?_eq_some_iff.1 hb).1
  have hbm : b.index < idom.size := hs.size ▸ hn.lt b (List.mem_of_getElem? hb)
  constructor
  · rw [Array.size_setIfInBounds, hs.size]
  · intro i c hc
    rw [getElem?_setIfInBounds hbm, parent?_set ht hjn]
    by_cases hij : i = j
    · subst i
      obtain rfl := Option.some.inj (hb.symm.trans hc)
      rw [if_pos rfl, if_pos rfl, Option.bind_some, ha]
    · have hcb : c.index ≠ b.index := fun h => hn.ne hc hb hij (congrArg BlockId.mk h)
      rw [if_neg hcb, if_neg hij, hs.entry i c hc]
  · intro c hc hcm
    have hcb : c.index ≠ b.index := by
      intro h
      obtain rfl : c = b := congrArg BlockId.mk h
      exact hc (List.mem_of_getElem? hb)
    rw [getElem?_setIfInBounds hbm, if_neg hcb, hs.blank c hc hcm]

section Pass

variable {arcs : Array (List Nat)} {preds : Array (List BlockId)}

theorem update_root (idom : Array (Option BlockId)) (flag : Bool) :
    update num preds root (idom, flag) root = some (idom, flag) := if_pos rfl

variable (hn : Numbered order m num) (hroot : order[0]? = some root)
  (hpreds : ∀ (j : Nat) (b : BlockId), order[j]? = some b → ∃ row : List BlockId,
    preds[b.index]? = some row ∧ (∀ p ∈ row, p.index < m) ∧
      arcs[j]?.getD [] = row.filterMap order.idxOf?)

include hn hroot hpreds

theorem update_eq (ht : Tree t order.length) (hs : Shows order m t idom) (hj : 0 < j)
    (hb : order[j]? = some b) (flag : Bool) :
    ∃ idom', Shows order m (Parents.update arcs t j) idom' ∧
      update num preds root (idom, flag) b =
        some (idom', flag || decide (Parents.update arcs t j ≠ t)) := by
  have hjn := (List.getElem?_eq_some_iff.1 hb).1
  have hbm := hn.lt b (List.mem_of_getElem? hb)
  obtain ⟨row, hrow, hlt, harcs⟩ := hpreds j b hb
  have hg := gather_common? ht (arcs[j]?.getD [])
  rw [Parents.update]
  generalize t.common? (arcs[j]?.getD []) = new at hg ⊢
  rw [harcs] at hg
  obtain ⟨hfold, hd⟩ := foldlM_gather hn ht hs hg (fun q hq => by cases hq) hlt
  rw [Option.bind_none] at hfold
  simp only [update, if_neg (hn.ne hb hroot hj.ne'), hrow, hfold, hs.entry j b hb,
    Option.bind_eq_bind, Option.bind_some]
  cases new with
  | none =>
    refine ⟨idom, hs, ?_⟩
    simp
  | some d =>
    obtain ⟨x, hx⟩ : ∃ x, order[d]? = some x := ⟨_, List.getElem?_eq_getElem (hd d rfl)⟩
    dsimp only
    have hset := set_eq_self_iff (d := d) ht hjn
    by_cases hsame : t.parent? j = some d
    · refine ⟨idom, by rwa [hset.2 hsame], ?_⟩
      simp [hx, hsame, hset.2 hsame]
    · have hset := mt hset.1 hsame
      have hmoved : (t.parent? j).bind (order[·]?) ≠ some x := by
        intro h
        obtain ⟨c, hc, hcx⟩ := Option.bind_eq_some_iff.1 h
        exact hsame (hn.inj hcx hx ▸ hc)
      refine ⟨_, hs.set hn ht hb hx, ?_⟩
      simp [hx, hset, hmoved, put_eq_some (hs.size ▸ hbm)]

theorem foldlM_update (hp : Ordered arcs order.length)
    (h : Stage arcs order.length k j t) (hs : Shows order m t idom) (hj : 0 < j)
    {bs rest : List BlockId} (hbs : order.drop j = bs ++ rest) (flag : Bool) :
    ∃ idom', Shows order m ((List.range' j bs.length).foldl (Parents.update arcs) t) idom' ∧
      bs.foldlM (update num preds root) (idom, flag) = some (idom',
        flag || decide ((List.range' j bs.length).foldl (Parents.update arcs) t ≠ t)) := by
  induction bs generalizing j t idom flag with
  | nil =>
    refine ⟨idom, hs, ?_⟩
    simp
  | cons b bs ih =>
    obtain ⟨hb, hdrop⟩ := of_drop_eq_cons hbs
    have hjn := (List.getElem?_eq_some_iff.1 hb).1
    obtain ⟨idom₁, hs₁, hfirst⟩ := update_eq hn hroot hpreds h.tree hs hj hb flag
    have h₁ := h.update hp hj hjn
    obtain ⟨idom₂, hs₂, hrest⟩ := ih h₁ hs₁ (Nat.succ_pos j) hdrop _
    rw [List.length_cons, List.range'_succ, List.foldl_cons, List.foldlM_cons, hfirst]
    refine ⟨idom₂, hs₂, hrest.trans ?_⟩
    -- a node that was moved is not touched again in the same pass
    have hflag : (List.range' (j + 1) bs.length).foldl (Parents.update arcs)
        (Parents.update arcs t j) = t → Parents.update arcs t j = t := by
      intro heq
      refine Parents.ext (by rw [h₁.tree.size, h.tree.size]) fun i => ?_
      by_cases hij : i = j
      · subst hij
        have hout : i ∉ List.range' (i + 1) bs.length := by simp
        rw [← parent?_updates hout, heq]
      · exact parent?_update hij
    by_cases hmoved : Parents.update arcs t j = t
    · simp [hmoved]
    · simp [hmoved, mt hflag hmoved]

theorem pass_eq (hp : Ordered arcs order.length) (h : Level arcs order.length k t)
    (hs : Shows order m t idom) : ∃ idom', Shows order m (Parents.pass arcs t) idom' ∧
      order.foldlM (update num preds root) (idom, false) =
        some (idom', decide (Parents.pass arcs t ≠ t)) := by
  obtain ⟨rest, hrest⟩ : ∃ rest, order = root :: rest := by
    rw [← List.head?_eq_getElem?] at hroot
    exact List.head?_eq_some_iff.1 hroot
  have hdrop : order.drop 1 = rest ++ [] := by
    rw [hrest, List.drop_succ_cons, List.drop_zero, List.append_nil]
  obtain ⟨idom', hs', hfold⟩ :=
    foldlM_update hn hroot hpreds hp h.stage hs Nat.one_pos hdrop false
  have hsize : t.size - 1 = rest.length := by
    rw [h.tree.size, hrest, List.length_cons, Nat.add_sub_cancel]
  refine ⟨idom', by rwa [Parents.pass, hsize], ?_⟩
  rw [Parents.pass, hsize, hrest, List.foldlM_cons, update_root, Option.bind_eq_bind,
    Option.bind_some, hfold, Bool.false_or]

/-- The passes end when the numbered table stands still. -/
theorem settle_eq {fuel : Nat} (hp : Ordered arcs order.length)
    (h : Level arcs order.length k t) (hk : order.length ≤ k + fuel)
    (hs : Shows order m t idom) :
    ∃ n last idom', n ≤ fuel ∧ Steps (sweep num preds root order) idom n last ∧
      sweep num preds root order last = some (.inl idom') ∧
      Shows order m (Parents.settle arcs (fuel + 1) t) idom' := by
  induction fuel generalizing k t idom with
  | zero =>
    have hrest : Parents.pass arcs t = t := (h.pass hp).eq hp h (by omega) hk
    obtain ⟨idom', hs', hpass⟩ := pass_eq hn hroot hpreds hp h hs
    rw [hrest] at hs'
    refine ⟨0, idom, idom', Nat.le_refl 0, .zero, ?_, ?_⟩
    · simp [sweep, hpass, hrest]
    · rwa [Parents.settle, if_pos hrest]
  | succ fuel ih =>
    obtain ⟨idom₁, hs₁, hpass⟩ := pass_eq hn hroot hpreds hp h hs
    rw [Parents.settle]
    by_cases hrest : Parents.pass arcs t = t
    · rw [if_pos hrest]
      refine ⟨0, idom, idom₁, Nat.zero_le _, .zero, ?_, hrest ▸ hs₁⟩
      simp [sweep, hpass, hrest]
    · obtain ⟨n, last, idom₂, hle, hsteps, hlast, hs₂⟩ := ih (h.pass hp) (by omega) hs₁
      rw [if_neg hrest]
      refine ⟨n + 1, last, idom₂, Nat.succ_le_succ hle, hsteps.head ?_, hlast, hs₂⟩
      simp [sweep, hpass, hrest]

end Pass

/-! Climbing from a block is climbing from its number. -/

theorem climbTo_eq (hn : Numbered order m num) (ht : Tree t order.length)
    (hs : Shows order m t idom) (hroot : order[0]? = some root) {fuel : Nat}
    (hf : j < fuel) (hpl : ∀ i < order.length, t.Placed i) (ha : order[i]? = some a)
    (hb : order[j]? = some b) :
    IdomTable.climbTo ⟨idom, root⟩ a b = some (t.isAncestor fuel i j) := by
  induction fuel generalizing j b with
  | zero => omega
  | succ fuel ih =>
    rw [Parents.isAncestor]
    by_cases hba : b = a
    · subst b
      apply loop_done
      simp [IdomTable.climb, hn.inj ha hb]
    · have hij : i ≠ j := by
        rintro rfl
        exact hba (Option.some.inj (hb.symm.trans ha))
      by_cases hbr : b = root
      · subst b
        obtain rfl := hn.inj hb hroot
        apply loop_done
        simp [IdomTable.climb, hba, hij]
      · have hj : j ≠ 0 := by
          rintro rfl
          exact hbr (Option.some.inj (hb.symm.trans hroot))
        have hjn := (List.getElem?_eq_some_iff.1 hb).1
        obtain ⟨c, hc⟩ := Option.isSome_iff_exists.1 (hpl j hjn)
        obtain ⟨x, hx, hentry⟩ := hs.parent ht hb hc
        have hcj := (ht.below j c hj hc).1
        have hnext : IdomTable.climb ⟨idom, root⟩ a b = some (.inr x) := by
          simp [IdomTable.climb, hba, hbr, hentry]
        refine (loop_next hnext).trans ((ih (by omega) hx).trans ?_)
        simp [hij, hj, hc]

end LoopFusion.Guarded
