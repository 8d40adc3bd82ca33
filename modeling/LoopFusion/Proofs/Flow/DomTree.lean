import LoopFusion.Proofs.Flow.ParentTable
import LoopFusion.Proofs.Flow.Search

/-!
Dominance is read off the settled parent table: a node is an ancestor of another exactly if every
walk from the root to the other visits it.
-/

namespace LoopFusion.Flow

namespace Parents

variable {t : Parents} {preds : Array (List Nat)} {n a b k j : Nat}

/-- Predecessors of `n` numbered nodes, of which every node but the first has a smaller one. -/
structure Ordered (preds : Array (List Nat)) (n : Nat) : Prop where
  pos : 0 < n
  arc : ∀ p j, Arc preds p j → p < n ∧ j < n
  earlier : ∀ j, 0 < j → j < n → ∃ p < j, Arc preds p j

/-- A table in the middle of pass `k`, with the nodes in front of `j` moved. -/
structure Stage (preds : Array (List Nat)) (n k j : Nat) (t : Parents) : Prop where
  tree : Tree t n
  sound : Sound preds t
  sharp : Sharp preds (fun b => if b < j then k + 1 else k) t

/-- A table after `k` passes. -/
structure Level (preds : Array (List Nat)) (n k : Nat) (t : Parents) : Prop where
  tree : Tree t n
  sound : Sound preds t
  sharp : Sharp preds (fun _ => k) t

theorem Anc.eq_of_not_placed (h : Anc t a b) (hb : ¬ t.Placed b) : a = b := by
  cases h with
  | refl => rfl
  | up _ hp _ => simp [Placed, hp] at hb

theorem Anc.eq_zero (h : Anc t a 0) : a = 0 := by
  cases h with
  | refl => rfl
  | up hne _ _ => exact absurd rfl hne

section Passes

variable (hp : Ordered preds n)

include hp

theorem Stage.update (h : Stage preds n k j t) (hj : 0 < j) (hjn : j < n) :
    Stage preds n k (j + 1) (update preds t j) := by
  obtain ⟨p, hpj, he⟩ := hp.earlier j hj hjn
  have hpp : t.Placed p := by
    refine h.sharp.placed p ?_ (by rw [h.tree.size]; omega)
    rw [if_pos hpj]
    omega
  obtain ⟨d, hd, hc⟩ := common?_spec h.tree (preds[j]?.getD []) ⟨p, he, hpp⟩
  have hlt : d < j := Nat.lt_of_le_of_lt ((hc.above p he hpp).le h.tree) hpj
  have hpd := hc.placed h.tree
  rw [Parents.update, hd]
  exact ⟨h.tree.set hj hjn hlt hpd, h.sound.set h.tree hjn hj hc hlt,
    h.sharp.set h.tree hjn hj hc hlt fun p j he => (hp.arc p j he).1⟩

theorem Stage.updates (h : Stage preds n k j t) (hj : 0 < j) (m : Nat) (hm : j + m ≤ n) :
    Stage preds n k (j + m) ((List.range' j m).foldl (Parents.update preds) t) := by
  induction m generalizing j t with
  | zero => exact h
  | succ m ih =>
    rw [List.range'_succ, List.foldl_cons]
    have := ih (h.update hp hj (by omega)) (by omega) (by omega)
    rwa [Nat.add_right_comm] at this

omit hp in
theorem Level.stage (h : Level preds n k t) : Stage preds n k 1 t := by
  refine ⟨h.tree, h.sound, ⟨fun b hb hs => ?_, fun a b r hw hr hanc => ?_⟩⟩
  · by_cases hb0 : b = 0
    · simp [hb0, Placed, h.tree.root]
    · refine h.sharp.placed b ?_ hs
      rwa [if_neg (by omega)] at hb
  · by_cases hb0 : b = 0
    · subst b
      exact hw.ne hanc.eq_zero
    · rw [if_neg (by omega)] at hr
      exact h.sharp.anc a b r hw hr hanc

theorem Level.pass (h : Level preds n k t) : Level preds n (k + 1) (pass preds t) := by
  have hend := h.stage.updates hp Nat.one_pos (n - 1) (by have := hp.pos; omega)
  rw [Parents.pass, h.tree.size]
  have hn : 1 + (n - 1) = n := by have := hp.pos; omega
  rw [hn] at hend
  refine ⟨hend.tree, hend.sound, ⟨fun b _ hs => ?_, fun a b r hw hr hanc => ?_⟩⟩
  · refine hend.sharp.placed b ?_ hs
    rw [hend.tree.size] at hs
    rw [if_pos hs]
    omega
  · by_cases hb : b < n
    · refine hend.sharp.anc a b r hw ?_ hanc
      rwa [if_pos hb]
    · exact hw.ne (hanc.eq_of_not_placed fun hpl => hb (lt_of_placed hend.tree hpl))

theorem Level.settle (h : Level preds n k t) (fuel : Nat) :
    Level preds n (k + fuel) (settle preds fuel t) := by
  induction fuel generalizing k t with
  | zero => exact h
  | succ fuel ih =>
    rw [Parents.settle]
    have hpass := h.pass hp
    split
    case isTrue heq =>
      -- a table that a pass does not change is at every level
      have hall : ∀ m, Level preds n (k + m) t := by
        intro m
        induction m with
        | zero => exact h
        | succ m ihm => exact heq ▸ ihm.pass hp
      exact hall (fuel + 1)
    case isFalse =>
      have := ih hpass
      rwa [Nat.add_right_comm] at this

end Passes

theorem parent?_initial (hn : 0 < n) :
    (initial n).parent? b = if b = 0 then some 0 else none := by
  unfold parent? initial
  rw [Array.getElem?_setIfInBounds]
  by_cases hb : b = 0
  · simp [hb, hn]
  · rw [if_neg (Ne.symm hb), if_neg hb, Array.getElem?_replicate]
    split <;> rfl

theorem level_initial (hn : 0 < n) : Level preds n 0 (initial n) := by
  have hpl : ∀ b, Placed (initial n) b → b = 0 := by
    intro b hb
    rw [Placed, parent?_initial hn] at hb
    by_contra hne
    simp [hne] at hb
  refine ⟨⟨?_, ?_, ?_⟩, ?_, ⟨?_, ?_⟩⟩
  · simp [initial]
  · rw [parent?_initial hn, if_pos rfl]
  · intro b c hb hc
    rw [parent?_initial hn, if_neg hb] at hc
    cases hc
  · intro b hb x hx
    obtain rfl := hpl b hb
    obtain rfl := hx.eq_zero
    exact ⟨.refl, fun y hy _ => hy.eq_zero ▸ hx⟩
  · intro b hb
    omega
  · intro a b r _ hr
    omega

/-! A walk that avoids a node need not go back more than once from each node. -/

/-- The fewest steps back with which a walk avoids `a`. -/
def Least (preds : Array (List Nat)) (a r b : Nat) : Prop :=
  Avoid preds a r b ∧ ∀ r' < r, ¬ Avoid preds a r' b

theorem Avoid.least {r : Nat} (h : Avoid preds a r b) : ∃ r' ≤ r, Least preds a r' b := by
  induction r using Nat.strong_induction_on with
  | _ r ih =>
    by_cases hex : ∃ r' < r, Avoid preds a r' b
    · obtain ⟨r', hlt, hr'⟩ := hex
      obtain ⟨r'', hle, hl⟩ := ih r' hlt hr'
      exact ⟨r'', by omega, hl⟩
    · push Not at hex
      exact ⟨r, le_rfl, h, hex⟩

theorem Least.prev {r : Nat} (h : Least preds a (r + 1) b) : ∃ c, Least preds a r c := by
  obtain ⟨hw, hmin⟩ := h
  generalize hs : r + 1 = s at hw
  induction hw with
  | root => omega
  | @forward s p j hw he hlt ha ih =>
    refine ih (fun r' hr' hw' => ?_) hs
    exact hmin r' (by omega) (.forward hw' he hlt ha)
  | @retreat s p j hw he hle ha _ =>
    obtain rfl : r = s := by omega
    refine ⟨p, hw, fun r' hr' hw' => ?_⟩
    exact hmin (r' + 1) (by omega) (.retreat hw' he hle ha)

theorem Least.unique {r s : Nat} (h : Least preds a r b) (h' : Least preds a s b) : r = s := by
  by_contra hne
  rcases Nat.lt_or_gt_of_ne hne with hlt | hlt
  · exact h'.2 r hlt h.1
  · exact h.2 s hlt h'.1

theorem Avoid.lt (hp : Ordered preds n) {r : Nat} (h : Avoid preds a r b) : b < n := by
  cases h with
  | root => exact hp.pos
  | forward _ he => exact (hp.arc _ _ he).2
  | retreat _ he => exact (hp.arc _ _ he).2

theorem Least.lt (hp : Ordered preds n) {r : Nat} (h : Least preds a r b) : r < n := by
  have hall : ∀ s, s ≤ r → ∃ c, Least preds a s c := by
    intro s hs
    induction r generalizing b with
    | zero => exact ⟨b, by rwa [Nat.le_zero.1 hs]⟩
    | succ r ih =>
      by_cases heq : s = r + 1
      · exact ⟨b, heq ▸ h⟩
      · obtain ⟨c, hc⟩ := h.prev
        exact ih hc (by omega)
  choose f hf using hall
  let g (s : Fin (r + 1)) : Fin n := ⟨f s (by omega), (hf s (by omega)).1.lt hp⟩
  have hinj : Function.Injective g := by
    intro s s' he
    have he : f s (by omega) = f s' (by omega) := congrArg Fin.val he
    have hs := hf s (by omega)
    rw [he] at hs
    exact Fin.ext (hs.unique (hf s' (by omega)))
  have := Fintype.card_le_of_injective g hinj
  rw [Fintype.card_fin, Fintype.card_fin] at this
  omega

/-- Enough passes leave exactly the dominators above a node. -/
theorem Level.anc_iff (hp : Ordered preds n) (h : Level preds n k t) (hk : n ≤ k) (hb : b < n) :
    Anc t a b ↔ Must preds a b := by
  constructor
  · intro hanc hw
    obtain ⟨r, hr⟩ := Avoid.of_walk hw
    obtain ⟨r', -, hl⟩ := hr.least
    exact h.sharp.anc a b r' hl.1 (Nat.lt_of_lt_of_le (hl.lt hp) hk) hanc
  · intro hm
    have hpl : t.Placed b := h.sharp.placed b (by omega) (by rwa [h.tree.size])
    exact (h.sound b hpl a hm).1

end Parents

variable {ν : Type} [DecidableEq ν] {g : Rooted ν} {all : List ν} {a b x y : ν}

/-- The nodes are among `all`, and the two adjacency lists agree where the root leads. -/
structure Rooted.Regular (g : Rooted ν) (all : List ν) : Prop where
  root : g.root ∈ all
  closed : ∀ x ∈ all, ∀ y ∈ g.succs x, y ∈ all
  bound : all.length < g.bound
  preds : ∀ x y, Reach g.succs g.root x → Reach g.succs g.root y →
    (y ∈ g.preds x ↔ x ∈ g.succs y)

theorem idxOf?_eq_some_of_nodup {l : List ν} (hn : l.Nodup) {i : Nat} :
    l.idxOf? x = some i ↔ l[i]? = some x := by
  rw [List.idxOf?_eq_some_iff, List.getElem?_eq_some_iff]
  constructor
  · rintro ⟨hi, he, -⟩
    exact ⟨hi, he⟩
  · rintro ⟨hi, he⟩
    refine ⟨hi, he, fun j hj hje => ?_⟩
    have := (List.Nodup.getElem_inj_iff hn).1 (hje.trans he.symm)
    omega

namespace DomTree

open Parents (Arc Must Ordered)

abbrev orderOf (g : Rooted ν) : List ν := reversePostorder g.succs g.bound g.root

theorem order_ofRooted (g : Rooted ν) : (ofRooted g).order = orderOf g := rfl

abbrev arcsOf (g : Rooted ν) : Array (List Nat) := numberedPreds g.preds (orderOf g)

section Regular

variable (hg : g.Regular all)

include hg

theorem mem_order : x ∈ orderOf g ↔ Reach g.succs g.root x :=
  mem_reversePostorder hg.closed hg.root hg.bound

theorem nodup_order : (orderOf g).Nodup :=
  nodup_reversePostorder hg.closed hg.root hg.bound

theorem order_zero : (orderOf g)[0]? = some g.root := by
  obtain ⟨r, hr⟩ := reversePostorder_eq_cons hg.closed hg.root hg.bound
  rw [orderOf, hr]
  rfl

theorem idxOf?_order {i : Nat} : (orderOf g).idxOf? x = some i ↔ (orderOf g)[i]? = some x :=
  idxOf?_eq_some_of_nodup (nodup_order hg)

theorem reach_of_getElem? {i : Nat} (h : (orderOf g)[i]? = some x) : Reach g.succs g.root x :=
  (mem_order hg).1 (List.mem_of_getElem? h)

theorem arc_iff {p j : Nat} : Arc (arcsOf g) p j ↔
    ∃ x y, (orderOf g)[j]? = some x ∧ (orderOf g)[p]? = some y ∧ x ∈ g.succs y := by
  have hget : (arcsOf g)[j]? =
      (orderOf g)[j]?.map fun x => (g.preds x).filterMap (orderOf g).idxOf? := by
    simp [numberedPreds]
  rw [Arc, hget]
  constructor
  · intro h
    cases hx : (orderOf g)[j]? with
    | none => simp [hx] at h
    | some x =>
      simp only [hx, Option.map_some, Option.getD_some, List.mem_filterMap] at h
      obtain ⟨y, hy, hyp⟩ := h
      rw [idxOf?_order hg] at hyp
      have := (hg.preds x y (reach_of_getElem? hg hx) (reach_of_getElem? hg hyp)).1 hy
      exact ⟨x, y, rfl, hyp, this⟩
  · rintro ⟨x, y, hx, hy, he⟩
    rw [hx, Option.map_some, Option.getD_some, List.mem_filterMap]
    have := (hg.preds x y (reach_of_getElem? hg hx) (reach_of_getElem? hg hy)).2 he
    exact ⟨y, this, (idxOf?_order hg).2 hy⟩

theorem ordered : Ordered (arcsOf g) (orderOf g).length := by
  have hlt : ∀ {i x}, (orderOf g)[i]? = some x → i < (orderOf g).length := fun h =>
    (List.getElem?_eq_some_iff.1 h).1
  refine ⟨hlt (order_zero hg), ?_, ?_⟩
  · intro p j h
    obtain ⟨x, y, hx, hy, -⟩ := (arc_iff hg).1 h
    exact ⟨hlt hy, hlt hx⟩
  · intro j hj hjn
    have hx : (orderOf g)[j]? = some (orderOf g)[j] := List.getElem?_eq_getElem hjn
    have hne : (orderOf g)[j] ≠ g.root := by
      intro he
      rw [he, ← order_zero hg] at hx
      have := (List.getElem?_inj hjn (nodup_order hg)).1 hx
      omega
    have hsplit : orderOf g =
        (orderOf g).take j ++ (orderOf g)[j] :: (orderOf g).drop (j + 1) := by
      rw [← List.drop_eq_getElem_cons hjn, List.take_append_drop]
    obtain ⟨y, hy, he⟩ := exists_earlier_pred hg.closed hg.root hg.bound hsplit hne
    obtain ⟨p, hp, rfl⟩ := List.mem_take_iff_getElem.1 hy
    refine ⟨p, by omega, (arc_iff hg).2 ⟨_, _, hx, ?_, he⟩⟩
    exact List.getElem?_eq_getElem (by omega)

theorem walk_iff {i j : Nat} (ha : (orderOf g)[i]? = some a) (hb : (orderOf g)[j]? = some b) :
    Walk (Arc (arcsOf g)) (· ≠ i) 0 j ↔ Walk (Edge g.succs) (· ≠ a) g.root b := by
  have hlt : ∀ {i x}, (orderOf g)[i]? = some x → i < (orderOf g).length := fun h =>
    (List.getElem?_eq_some_iff.1 h).1
  have hinj : ∀ {i j x}, (orderOf g)[i]? = some x → (orderOf g)[j]? = some x → i = j :=
    fun hi hj => (List.getElem?_inj (hlt hi) (nodup_order hg)).1 (hi.trans hj.symm)
  constructor
  · intro h
    induction h generalizing b with
    | refl hne =>
      obtain rfl := Option.some.inj ((order_zero hg).symm.trans hb)
      exact .refl fun he => hne (hinj hb (he ▸ ha))
    | @tail p j _ he hne ih =>
      obtain ⟨x, y, hx, hy, hxy⟩ := (arc_iff hg).1 he
      obtain rfl := Option.some.inj (hx.symm.trans hb)
      exact .tail (ih hy) hxy fun he => hne (hinj hb (he ▸ ha))
  · intro h
    induction h generalizing j with
    | refl hne =>
      obtain rfl := hinj (order_zero hg) hb
      exact .refl fun he => hne (Option.some.inj ((he ▸ hb).symm.trans ha))
    | @tail y x hw he hne ih =>
      obtain ⟨p, hp⟩ := List.mem_iff_getElem?.1 ((mem_order hg).2 hw.reach)
      refine .tail (ih hp) ((arc_iff hg).2 ⟨x, y, hb, hp, he⟩) fun he => ?_
      exact hne (Option.some.inj ((he ▸ hb).symm.trans ha))

/-- There are passes to spare. -/
theorem level : Parents.Level (arcsOf g) (orderOf g).length
    (0 + ((orderOf g).length * (orderOf g).length + 1)) (ofRooted g).parents :=
  (Parents.level_initial (ordered hg).pos).settle (ordered hg) _

theorem dominates_iff : (ofRooted g).dominates a b = true ↔ Dom (Edge g.succs) g.root a b := by
  have hord := ordered hg
  have hlevel := level hg
  have hk := Nat.le_mul_self (orderOf g).length
  rw [dominates, number?, number?, order_ofRooted]
  constructor
  · intro h
    split at h
    case h_1 i j hi hj =>
      rw [idxOf?_order hg] at hi hj
      have hjn := (List.getElem?_eq_some_iff.1 hj).1
      have hanc := (Parents.isAncestor_iff hlevel.tree hjn).1 h
      rw [hlevel.anc_iff hord (by omega) hjn] at hanc
      exact ⟨reach_of_getElem? hg hj, fun hw => hanc ((walk_iff hg hi hj).2 hw)⟩
    case h_2 => cases h
  · intro h
    obtain ⟨i, hi⟩ := List.mem_iff_getElem?.1 ((mem_order hg).2 h.reach_left)
    obtain ⟨j, hj⟩ := List.mem_iff_getElem?.1 ((mem_order hg).2 h.1)
    have hjn := (List.getElem?_eq_some_iff.1 hj).1
    rw [(idxOf?_order hg).2 hi, (idxOf?_order hg).2 hj]
    refine (Parents.isAncestor_iff hlevel.tree hjn).2 ?_
    rw [hlevel.anc_iff hord (by omega) hjn]
    exact fun hw => h.2 ((walk_iff hg hi hj).1 hw)

end Regular

end DomTree

end LoopFusion.Flow
