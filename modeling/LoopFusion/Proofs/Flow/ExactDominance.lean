import LoopFusion.Ir.Builder
import LoopFusion.Proofs.Flow.Graph

/-!
The tree of dominators is exact. The passes that compute it end of themselves, in a table that one
more pass would not change; a block stands above another exactly if it is on every path there; and
the parent of a block is the dominator that all its other dominators dominate.
-/

namespace LoopFusion.Flow

open Relation

section Paths

variable {ν : Type} {E : ν → ν → Prop} {P : ν → Prop} {r a b c : ν} {p : List ν}

/-- A path along `E` with the list of its nodes. -/
inductive Path (E : ν → ν → Prop) : ν → ν → List ν → Prop
  | single {a : ν} : Path E a a [a]
  | cons {a b c : ν} {p : List ν} : E a b → Path E b c p → Path E a c (a :: p)

theorem Path.snoc (h : Path E a b p) (he : E b c) : Path E a c (p ++ [c]) := by
  induction h with
  | single => exact .cons he .single
  | cons hab _ ih => exact .cons hab (ih he)

theorem Path.getLast? (h : Path E a b p) : p.getLast? = some b := by
  induction h with
  | single => rfl
  | cons _ _ ih => rw [List.getLast?_cons, ih, Option.getD_some]

theorem Path.of_snoc (h : Path E a b (p ++ [b])) : p = [] ∧ a = b ∨ ∃ c, Path E a c p ∧ E c b := by
  generalize hq : p ++ [b] = q at h
  induction h generalizing p with
  | single => exact .inl ⟨by simpa using hq, rfl⟩
  | @cons a c b r hac hr ih =>
    cases p with
    | nil =>
      obtain ⟨rfl, rfl⟩ := List.cons.inj hq
      cases hr
    | cons x p =>
      obtain ⟨rfl, hp⟩ := List.cons.inj hq
      rcases ih hp with ⟨rfl, rfl⟩ | ⟨d, hd, hdb⟩
      · exact .inr ⟨x, .single, hac⟩
      · exact .inr ⟨d, .cons hac hd, hdb⟩

theorem Path.walk (h : Path E a b p) (hP : ∀ x ∈ p, P x) : Walk E P a b := by
  induction h with
  | single => exact .refl (hP _ (List.mem_singleton_self _))
  | cons he _ ih =>
    rw [List.forall_mem_cons] at hP
    exact .head hP.1 he (ih hP.2)

theorem Walk.exists_path (h : Walk E P a b) : ∃ p, Path E a b p ∧ ∀ x ∈ p, P x := by
  induction h with
  | refl ha => exact ⟨_, .single, fun x hx => List.mem_singleton.1 hx ▸ ha⟩
  | tail _ he hc ih =>
    obtain ⟨p, hp, hP⟩ := ih
    refine ⟨_, hp.snoc he, fun x hx => ?_⟩
    rcases List.mem_append.1 hx with hx | hx
    · exact hP x hx
    · exact List.mem_singleton.1 hx ▸ hc

theorem not_walk_iff_path : ¬ Walk E (· ≠ a) b c ↔ ∀ p, Path E b c p → a ∈ p := by
  constructor
  · intro h p hp
    by_contra ha
    exact h (hp.walk fun x hx he => ha (he ▸ hx))
  · intro h hw
    obtain ⟨p, hp, hne⟩ := hw.exists_path
    exact hne a (h p hp) rfl

/-- A dominator is a node on every path from the root. -/
theorem dom_iff_path :
    Dom E r a b ↔ ReflTransGen E r a ∧ ReflTransGen E r b ∧ ∀ p, Path E r b p → a ∈ p := by
  rw [← not_walk_iff_path]
  exact ⟨fun h => ⟨h.reach_left, h⟩, fun h => h.2⟩

/-- The last dominator of `b` other than `b` itself. -/
structure Immediate (E : ν → ν → Prop) (r a b : ν) : Prop where
  dom : Dom E r a b
  ne : a ≠ b
  last : ∀ c, Dom E r c b → c ≠ b → Dom E r c a

theorem Immediate.unique (h : Immediate E r a b) (h' : Immediate E r c b) : a = c :=
  (h'.last a h.dom h.ne).antisymm (h.last c h'.dom h'.ne)

end Paths

section Search

variable {ν : Type} {next : ν → List ν} {s s' s'' : Visit ν} {n : ν} {ns all : List ν} {bound : Nat}

/-- A depth-first search from the nodes of a list, with nothing to bound its depth. -/
inductive Explores (next : ν → List ν) : Visit ν → List ν → Visit ν → Prop
  | done {s : Visit ν} : Explores next s [] s
  | skip {s s' : Visit ν} {n : ν} {ns : List ν} :
    n ∈ s.seen → Explores next s ns s' → Explores next s (n :: ns) s'
  | enter {s s' s'' : Visit ν} {n : ν} {ns : List ν} :
    n ∉ s.seen → Explores next { s with seen := n :: s.seen } (next n) s' →
      Explores next { s' with order := n :: s'.order } ns s'' → Explores next s (n :: ns) s''

theorem Explores.cons (h : Explores next s [n] s') (h' : Explores next s' ns s'') :
    Explores next s (n :: ns) s'' := by
  cases h with
  | skip hn h =>
    cases h
    exact .skip hn h'
  | enter hn h₁ h₂ =>
    cases h₂
    exact .enter hn h₁ h'

variable [DecidableEq ν]

theorem explores_foldl {fuel : Nat} (hvisit : ∀ (s : Visit ν) (n : ν), n ∈ all →
      unseen all s < fuel → Explores next s [n] (visit next fuel s n))
    (hall : ∀ x ∈ all, ∀ y ∈ next x, y ∈ all) (hns : ∀ n ∈ ns, n ∈ all)
    (hf : unseen all s < fuel) : Explores next s ns (ns.foldl (visit next fuel) s) := by
  induction ns generalizing s with
  | nil => exact .done
  | cons n ns ih =>
    rw [List.forall_mem_cons] at hns
    obtain ⟨new, hg, -⟩ := grows_visit hall fuel s n hns.1 hf
    have hle : unseen all (visit next fuel s n) ≤ unseen all s :=
      unseen_le fun x hx => (hg.seen x).2 (.inr hx)
    exact (hvisit s n hns.1 hf).cons (ih hns.2 (by omega))

theorem explores_visit (hall : ∀ x ∈ all, ∀ y ∈ next x, y ∈ all) (fuel : Nat) (s : Visit ν) (n : ν)
    (hn : n ∈ all) (hf : unseen all s < fuel) : Explores next s [n] (visit next fuel s n) := by
  induction fuel generalizing s n with
  | zero => omega
  | succ fuel ih =>
    rw [visit]
    split
    case isTrue h => exact .skip h .done
    case isFalse h =>
      have hlt := unseen_lt hn h
      exact .enter h (explores_foldl ih hall (hall n hn) (by omega)) .done

theorem explores_reversePostorder {g : Rooted ν} (hg : g.Regular all) : Explores g.succs ⟨[], []⟩
    [g.root] ([g.root].foldl (visit g.succs g.bound) ⟨[], []⟩) :=
  explores_foldl (explores_visit hg.closed g.bound) hg.closed (List.forall_mem_singleton.2 hg.root)
    (Nat.lt_of_le_of_lt (List.length_filter_le _ _) hg.bound)

end Search

namespace Parents

variable {t t' : Parents} {preds : Array (List Nat)} {best : Option Nat} {ps : List Nat}
  {n k k' a b j p : Nat}

/-! The computation with nothing to bound its loops. -/

/-- Climbing from the deeper of two nodes until both are one. -/
inductive Climb (t : Parents) : Nat → Nat → Nat → Prop
  | met {a : Nat} : Climb t a a a
  | left {a b c p : Nat} : b < a → t.parent? a = some p → Climb t p b c → Climb t a b c
  | right {a b c p : Nat} : a < b → t.parent? b = some p → Climb t a p c → Climb t a b c

/-- The node where `best` and the placed members of a list meet. -/
inductive Gather (t : Parents) : Option Nat → List Nat → Option Nat → Prop
  | done {best : Option Nat} : Gather t best [] best
  | skip {best d : Option Nat} {p : Nat} {ps : List Nat} :
    t.parent? p = none → Gather t best ps d → Gather t best (p :: ps) d
  | first {d : Option Nat} {p : Nat} {ps : List Nat} :
    t.Placed p → Gather t (some p) ps d → Gather t none (p :: ps) d
  | meet {d : Option Nat} {p q c : Nat} {ps : List Nat} :
    t.Placed p → Climb t p q c → Gather t (some c) ps d → Gather t (some q) (p :: ps) d

/-- One pass over the nodes of a list. -/
inductive Sweep (preds : Array (List Nat)) : Parents → List Nat → Parents → Prop
  | done {t : Parents} : Sweep preds t [] t
  | stay {t t' : Parents} {j : Nat} {js : List Nat} :
    Gather t none (preds[j]?.getD []) none → Sweep preds t js t' → Sweep preds t (j :: js) t'
  | move {t t' : Parents} {j d : Nat} {js : List Nat} :
    Gather t none (preds[j]?.getD []) (some d) → Sweep preds (t.setIfInBounds j (some d)) js t' →
      Sweep preds t (j :: js) t'

/-- Passes over all nodes but the root until one changes nothing. -/
inductive Settles (preds : Array (List Nat)) : Parents → Parents → Prop
  | rest {t : Parents} : Sweep preds t (List.range' 1 (t.size - 1)) t → Settles preds t t
  | again {t t' u : Parents} : Sweep preds t (List.range' 1 (t.size - 1)) t' → t' ≠ t →
    Settles preds t' u → Settles preds t u

theorem climb_meet (ht : Tree t n) (fuel a b : Nat) (hf : a + b ≤ fuel) (ha : t.Placed a)
    (hb : t.Placed b) : Climb t a b (t.meet fuel a b) := by
  induction fuel generalizing a b with
  | zero =>
    obtain ⟨rfl, rfl⟩ : a = 0 ∧ b = 0 := by omega
    exact .met
  | succ fuel ih =>
    rw [meet]
    split
    · subst b
      exact .met
    split
    case isTrue hlt =>
      obtain ⟨p, hp⟩ := Option.isSome_iff_exists.1 ha
      have hpa := ht.below _ _ (by omega) hp
      simp only [hp]
      exact .left hlt hp (ih p b (by omega) hpa.2 hb)
    case isFalse hlt =>
      obtain ⟨p, hp⟩ := Option.isSome_iff_exists.1 hb
      have hpb := ht.below _ _ (by omega) hp
      simp only [hp]
      exact .right (by omega) hp (ih a p (by omega) ha hpb.2)

theorem gather_common? (ht : Tree t n) (ps : List Nat) : Gather t none ps (t.common? ps) := by
  have key : ∀ best, (∀ q, best = some q → t.Placed q) →
      Gather t best ps (ps.foldl t.gather best) := by
    induction ps with
    | nil => exact fun best _ => .done
    | cons p ps ih =>
      intro best hbest
      rw [List.foldl_cons]
      cases hp : t.parent? p with
      | none =>
        have hstep : t.gather best p = best := by simp only [gather, hp]
        rw [hstep]
        exact .skip hp (ih best hbest)
      | some c =>
        have hpp : t.Placed p := by rw [Placed, hp]; rfl
        cases best with
        | none =>
          have hstep : t.gather none p = some p := by simp only [gather, hp]
          rw [hstep]
          exact .first hpp (ih (some p) fun q hq => Option.some.inj hq ▸ hpp)
        | some q =>
          have hstep : t.gather (some q) p = some (t.meet (2 * t.size) p q) := by
            simp only [gather, hp]
          rw [hstep]
          have hq := hbest q rfl
          have hle : p + q ≤ 2 * t.size := by
            have := lt_of_placed ht hpp
            have := lt_of_placed ht hq
            rw [ht.size]
            omega
          refine .meet hpp (climb_meet ht _ p q hle hpp hq) (ih (some _) fun d hd => ?_)
          exact Option.some.inj hd ▸ (meet_spec ht _ p q hle hpp hq).1.placed ht hpp
  exact key none fun q hq => by cases hq

section Passes

variable (hp : Ordered preds n)

include hp

theorem Stage.sweep (h : Stage preds n k j t) (hj : 0 < j) (m : Nat) (hm : j + m ≤ n) :
    Sweep preds t (List.range' j m) ((List.range' j m).foldl (Parents.update preds) t) := by
  induction m generalizing j t with
  | zero => exact .done
  | succ m ih =>
    rw [List.range'_succ, List.foldl_cons]
    have hrest := ih (h.update hp hj (by omega)) (by omega) (by omega)
    have hg := gather_common? h.tree (preds[j]?.getD [])
    rw [Parents.update] at hrest ⊢
    cases hc : t.common? (preds[j]?.getD []) with
    | none =>
      rw [hc] at hg hrest
      exact .stay hg hrest
    | some d =>
      rw [hc] at hg hrest
      exact .move hg hrest

theorem Level.sweep (h : Level preds n k t) :
    Sweep preds t (List.range' 1 (t.size - 1)) (Parents.pass preds t) := by
  rw [Parents.pass, h.tree.size]
  exact h.stage.sweep hp Nat.one_pos (n - 1) (by have := hp.pos; omega)

/-- The parent of a node is its greatest dominator below it. -/
theorem Level.parent (h : Level preds n k t) (hk : n ≤ k) (hb : b ≠ 0) (hc : t.parent? b = some a) :
    Must preds a b ∧ a < b ∧ ∀ x, Must preds x b → x ≠ b → Anc t x a := by
  have hbn : b < n := lt_of_placed h.tree (by rw [Placed, hc]; rfl)
  have hlt := (h.tree.below b a hb hc).1
  refine ⟨(h.anc_iff hp hk hbn).1 (.up hb hc .refl), hlt, fun x hx hne => ?_⟩
  obtain ⟨-, c, hc', hxc⟩ := ((h.anc_iff hp hk hbn).2 hx).strict hne
  rw [hc] at hc'
  exact Option.some.inj hc' ▸ hxc

/-- After as many passes as there are nodes there is nothing left to change. -/
theorem Level.eq (h : Level preds n k t) (h' : Level preds n k' t') (hk : n ≤ k) (hk' : n ≤ k') :
    t = t' := by
  refine ext (by rw [h.tree.size, h'.tree.size]) fun i => ?_
  by_cases hin : i < n
  case neg =>
    have hout : ∀ {k t}, Level preds n k t → t.parent? i = none := fun h =>
      Option.not_isSome_iff_eq_none.1 fun hpl => hin (lt_of_placed h.tree hpl)
    rw [hout h, hout h']
  have hpl : ∀ {k t}, Level preds n k t → n ≤ k → t.Placed i := fun h hk =>
    h.sharp.placed i (by omega) (by rwa [h.tree.size])
  obtain ⟨c, hc⟩ := Option.isSome_iff_exists.1 (hpl h hk)
  obtain ⟨c', hc'⟩ := Option.isSome_iff_exists.1 (hpl h' hk')
  rw [hc, hc']
  apply congrArg some
  by_cases hi0 : i = 0
  · subst i
    rw [h.tree.root] at hc
    rw [h'.tree.root] at hc'
    exact Option.some.inj (hc.symm.trans hc')
  · obtain ⟨hm, hlt, hlast⟩ := h.parent hp hk hi0 hc
    obtain ⟨hm', hlt', hlast'⟩ := h'.parent hp hk' hi0 hc'
    exact Nat.le_antisymm ((hlast' c hm hlt.ne).le h'.tree) ((hlast c' hm' hlt'.ne).le h.tree)

theorem Level.settles (h : Level preds n k t) (fuel : Nat) (hk : n ≤ k + fuel) :
    Settles preds t (Parents.settle preds (fuel + 1) t) := by
  induction fuel generalizing k t with
  | zero =>
    have hrest : Parents.pass preds t = t := (h.pass hp).eq hp h (by omega) hk
    have hs := h.sweep hp
    rw [hrest] at hs
    rw [Parents.settle, if_pos hrest]
    exact .rest hs
  | succ fuel ih =>
    have hs := h.sweep hp
    rw [Parents.settle]
    split
    case isTrue hrest =>
      rw [hrest] at hs
      exact .rest hs
    case isFalse hne => exact .again hs hne (ih (h.pass hp) (by omega))

end Passes

end Parents

namespace DomTree

open Parents (Must)

variable {ν : Type} [DecidableEq ν] {g : Rooted ν} {all : List ν} {a b : ν}

section Regular

variable (hg : g.Regular all)

include hg

theorem settles : Parents.Settles (numberedPreds g.preds (ofRooted g).order)
    (.initial (ofRooted g).order.length) (ofRooted g).parents :=
  (Parents.level_initial (ordered hg).pos).settles (ordered hg) _
    (Nat.zero_add _ ▸ Nat.le_mul_self _)

theorem must_iff {i j : Nat} (ha : (orderOf g)[i]? = some a) (hb : (orderOf g)[j]? = some b) :
    Must (arcsOf g) i j ↔ Dom (Edge g.succs) g.root a b := by
  rw [Must, walk_iff hg ha hb]
  exact ⟨fun h => ⟨reach_of_getElem? hg hb, h⟩, fun h => h.2⟩

/-- A node that the root reaches, and that is not the root itself, has a parent in the tree. -/
theorem exists_idom (hb : Reach g.succs g.root b) (hne : b ≠ g.root) :
    ∃ a, (ofRooted g).idom? b = some a ∧ Immediate (Edge g.succs) g.root a b := by
  have hord := ordered hg
  have hlevel := level hg
  have hk := Nat.le_mul_self (orderOf g).length
  obtain ⟨j, hj⟩ := List.mem_iff_getElem?.1 ((mem_order hg).2 hb)
  have hjn := (List.getElem?_eq_some_iff.1 hj).1
  have hj0 : j ≠ 0 := by
    rintro rfl
    exact hne (Option.some.inj (hj.symm.trans (order_zero hg)))
  obtain ⟨i, hi⟩ := Option.isSome_iff_exists.1
    (hlevel.sharp.placed j (by omega) (by rwa [hlevel.tree.size]))
  obtain ⟨hm, hlt, hlast⟩ := hlevel.parent hord (by omega) hj0 hi
  have hin : i < (orderOf g).length := hlt.trans hjn
  have ha : (orderOf g)[i]? = some (orderOf g)[i] := List.getElem?_eq_getElem hin
  refine ⟨(orderOf g)[i], ?_, (must_iff hg ha hj).1 hm, fun he => ?_, fun c hc hcb => ?_⟩
  · obtain ⟨j, rfl⟩ := Nat.exists_eq_succ_of_ne_zero hj0
    rw [idom?, number?, order_ofRooted]
    rw [(idxOf?_order hg).2 hj]
    exact Option.bind_eq_some_iff.2 ⟨i, hi, ha⟩
  · rw [he] at ha
    exact hlt.ne ((List.getElem?_inj hin (nodup_order hg)).1 (ha.trans hj.symm))
  · obtain ⟨x, hx⟩ := List.mem_iff_getElem?.1 ((mem_order hg).2 hc.reach_left)
    have hxj : x ≠ j := by
      rintro rfl
      exact hcb (Option.some.inj (hx.symm.trans hj))
    have hanc := hlast x ((must_iff hg hx hj).2 hc) hxj
    exact (must_iff hg hx ha).1 ((hlevel.anc_iff hord (by omega) hin).1 hanc)

theorem idom?_root : (ofRooted g).idom? g.root = none := by
  rw [idom?, number?, order_ofRooted]
  rw [(idxOf?_order hg).2 (order_zero hg)]

theorem idom?_of_unreachable (hb : ¬ Reach g.succs g.root b) : (ofRooted g).idom? b = none := by
  have hnone : (orderOf g).idxOf? b = none :=
    List.idxOf?_eq_none_iff.2 fun h => hb ((mem_order hg).1 h)
  rw [idom?, number?, order_ofRooted]
  rw [hnone]

theorem idom?_eq_some : (ofRooted g).idom? b = some a ↔ Immediate (Edge g.succs) g.root a b := by
  constructor
  · intro h
    by_cases hb : Reach g.succs g.root b
    · by_cases hne : b = g.root
      · rw [hne, idom?_root hg] at h
        cases h
      · obtain ⟨c, hc, him⟩ := exists_idom hg hb hne
        rw [hc] at h
        exact Option.some.inj h ▸ him
    · rw [idom?_of_unreachable hg hb] at h
      cases h
  · intro h
    have hne : b ≠ g.root := by
      rintro rfl
      exact h.ne (h.dom.antisymm (.root h.dom.reach_left))
    obtain ⟨c, hc, him⟩ := exists_idom hg h.dom.1 hne
    rw [hc, h.unique him]

end Regular

end DomTree

end LoopFusion.Flow

namespace LoopFusion

open Relation LoopFusion.Flow

namespace Dominators

variable {f : Func} {e a b : BlockId}

section

variable (hf : f.InArena) (he : f.entry? = some e)

include hf he

theorem idom?_eq_some :
    (Dominators.ofCfg (Cfg.ofFunc f)).idom? b = some a ↔ Immediate f.Edge e a b := by
  rw [idom?, ofCfg, Cfg.entry_ofFunc, he, Option.map_some, Option.bind_some,
    DomTree.idom?_eq_some (regular hf he), Cfg.edge_succs]

theorem idom?_eq_none :
    (Dominators.ofCfg (Cfg.ofFunc f)).idom? b = none ↔ b = e ∨ ¬ f.Leads e b := by
  constructor
  · intro h
    by_contra hn
    rw [not_or, not_not] at hn
    obtain ⟨a, ha, -⟩ := DomTree.exists_idom (regular hf he) (b := b)
      (by rw [Reach, Cfg.edge_succs]; exact hn.2) hn.1
    rw [idom?, ofCfg, Cfg.entry_ofFunc, he, Option.map_some, Option.bind_some, ha] at h
    cases h
  · intro h
    by_contra hn
    obtain ⟨a, ha⟩ := Option.ne_none_iff_exists'.1 hn
    have him := (idom?_eq_some hf he).1 ha
    rcases h with rfl | h
    · exact him.ne him.dom.eq_root
    · exact h him.dom.1

theorem strictlyDominates_iff :
    (Dominators.ofCfg (Cfg.ofFunc f)).strictlyDominates a b = true ↔ Dom f.Edge e a b ∧ a ≠ b := by
  rw [strictlyDominates, Bool.and_eq_true, decide_eq_true_eq, dominates_iff hf he, and_comm]

theorem immediate_iff : Immediate f.Edge e a b ↔
    (Dominators.ofCfg (Cfg.ofFunc f)).strictlyDominates a b ∧
      ∀ c, (Dominators.ofCfg (Cfg.ofFunc f)).strictlyDominates c b →
        (Dominators.ofCfg (Cfg.ofFunc f)).dominates c a := by
  simp only [strictlyDominates_iff hf he, dominates_iff hf he, and_imp]
  exact ⟨fun h => ⟨⟨h.dom, h.ne⟩, h.last⟩, fun h => ⟨h.1.1, h.1.2, h.2⟩⟩

omit hf in
theorem tree?_eq_some : (Dominators.ofCfg (Cfg.ofFunc f)).tree? = some (DomTree.ofRooted
    ⟨e, (Cfg.ofFunc f).succs, (Cfg.ofFunc f).preds, (Cfg.ofFunc f).capacity + 1⟩) := by
  rw [ofCfg, Cfg.entry_ofFunc, he, Option.map_some]

end

/-- What there is to say about the dominators of a function, by the paths of its graph alone. -/
structure Exact (f : Func) (d : Dominators) : Prop where
  /-- The search for the order and the passes over the table end by themselves. -/
  ends : ∀ e, f.entry? = some e → ∃ t s, d.tree? = some t ∧
    Explores (Cfg.ofFunc f).succs ⟨[], []⟩ [e] s ∧ t.order = s.order ∧
      Parents.Settles (DomTree.numberedPreds (Cfg.ofFunc f).preds t.order)
        (.initial t.order.length) t.parents
  dominates : ∀ a b, d.dominates a b ↔ ∃ e, f.entry? = some e ∧ f.Leads e a ∧ f.Leads e b ∧
    ∀ p, Path f.Edge e b p → a ∈ p
  idom_none : ∀ b, d.idom? b = none ↔ ∀ e, f.entry? = some e → b = e ∨ ¬ f.Leads e b
  idom_some : ∀ a b, d.idom? b = some a ↔
    d.strictlyDominates a b ∧ ∀ c, d.strictlyDominates c b → d.dominates c a

/-- Whatever edges a function has between the blocks of its arena, its dominators are exact. -/
theorem exact (hf : f.InArena) : Exact f (ofCfg (Cfg.ofFunc f)) := by
  cases he : f.entry? with
  | none =>
    have hd : ofCfg (Cfg.ofFunc f) = ⟨none⟩ := by rw [ofCfg, Cfg.entry_ofFunc, he]; rfl
    rw [hd]
    constructor <;> simp [he, dominates, strictlyDominates, idom?]
  | some e =>
    refine ⟨?_, fun a b => ?_, fun b => ?_, fun a b => ?_⟩
    · intro e' he'
      obtain rfl := Option.some.inj (he.symm.trans he')
      exact ⟨_, _, tree?_eq_some he, explores_reversePostorder (regular hf he), rfl,
        DomTree.settles (regular hf he)⟩
    · simp only [he, Option.some.injEq, exists_eq_left', dominates_iff hf he, dom_iff_path]
    · simp only [he, Option.some.injEq, forall_eq', idom?_eq_none hf he]
    · rw [idom?_eq_some hf he, immediate_iff hf he]

/-- Two blocks that lead to each other, both entered from outside, and a block that nothing leads
to with an edge to one of them. -/
def crossing : Func := .build "f" do
  let c ← Build.param "c" .int
  let x ← Build.createBlock "x"
  let y ← Build.createBlock "y"
  let exit ← Build.createBlock "exit"
  let dead ← Build.createBlock "dead"
  discard <| Build.emit (.condBr c x y)
  Build.switchTo x
  discard <| Build.emit (.br y)
  Build.switchTo y
  discard <| Build.emit (.condBr c x exit)
  Build.switchTo exit
  discard <| Build.emit (.ret none)
  Build.switchTo dead
  discard <| Build.emit (.br y)

theorem inArena_crossing : crossing.InArena :=
  .of_layout (by decide +kernel) (by decide +kernel)

theorem exact_crossing : crossing.InArena ∧ Exact crossing (ofCfg (Cfg.ofFunc crossing)) :=
  ⟨inArena_crossing, exact inArena_crossing⟩

/-- Neither of the two blocks dominates the other, and the dead block has no part in it. -/
example : crossing.layout.map (ofCfg (Cfg.ofFunc crossing)).idom? =
    [none, some ⟨0⟩, some ⟨0⟩, some ⟨2⟩, none] := by
  decide +kernel

end Dominators

end LoopFusion
