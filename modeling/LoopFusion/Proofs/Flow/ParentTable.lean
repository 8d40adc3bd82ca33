import LoopFusion.Flow.Dominance
import LoopFusion.Proofs.Flow.Walk
import Mathlib.Data.Fintype.Card
import Mathlib.Data.Fintype.EquivFin

/-!
The parent table of numbered nodes settles to the dominator tree. Two invariants carry every
update: no dominator is lost from the ancestors of a node, and after `k` passes no ancestor is left
that a walk with fewer than `k` edges to smaller numbers avoids.
-/

namespace LoopFusion.Flow.Parents

variable {t : Parents} {n a b c d j p x y : Nat}

/-- `a` is `b` or above it. -/
inductive Anc (t : Parents) (a : Nat) : Nat → Prop
  | refl : Anc t a a
  | up {b c : Nat} : b ≠ 0 → t.parent? b = some c → Anc t a c → Anc t a b

abbrev Placed (t : Parents) (b : Nat) : Prop := (t.parent? b).isSome

/-- A table of `n` nodes in which parents have a place and smaller numbers. -/
structure Tree (t : Parents) (n : Nat) : Prop where
  size : t.size = n
  root : t.parent? 0 = some 0
  below : ∀ b c, b ≠ 0 → t.parent? b = some c → c < b ∧ t.Placed c

theorem ext {t' : Parents} (hsize : t.size = t'.size) (h : ∀ i, t.parent? i = t'.parent? i) :
    t = t' := by
  refine Array.ext hsize fun i hi hi' => ?_
  have hi'' := h i
  rwa [parent?, parent?, Array.getElem?_eq_getElem hi, Array.getElem?_eq_getElem hi',
    Option.join_some, Option.join_some] at hi''

theorem lt_of_placed (ht : Tree t n) (h : t.Placed b) : b < n := by
  by_contra hn
  have : t[b]? = none := Array.getElem?_eq_none (by rw [ht.size]; omega)
  simp [Placed, parent?, this] at h

namespace Anc

theorem trans (h : Anc t a b) (h' : Anc t b c) : Anc t a c := by
  induction h' with
  | refl => exact h
  | up hne hp _ ih => exact .up hne hp ih

theorem strict (h : Anc t a b) (hne : a ≠ b) : b ≠ 0 ∧ ∃ c, t.parent? b = some c ∧ Anc t a c := by
  cases h with
  | refl => exact absurd rfl hne
  | up hb hp h => exact ⟨hb, _, hp, h⟩

theorem le (ht : Tree t n) (h : Anc t a b) : a ≤ b := by
  induction h with
  | refl => exact le_rfl
  | up hb hp _ ih => exact ih.trans (ht.below _ _ hb hp).1.le

theorem placed (ht : Tree t n) (h : Anc t a b) (hb : t.Placed b) : t.Placed a := by
  induction h with
  | refl => exact hb
  | up hne hp _ ih => exact ih (ht.below _ _ hne hp).2

theorem eq_of_le (ht : Tree t n) (h : Anc t a b) (hle : b ≤ a) : a = b :=
  Nat.le_antisymm (h.le ht) hle

theorem chain (ht : Tree t n) (ha : Anc t a c) (hb : Anc t b c) (hle : a ≤ b) : Anc t a b := by
  induction ha with
  | refl =>
    have := hb.eq_of_le ht hle
    exact this ▸ .refl
  | @up c _ hne hp h ih =>
    by_cases hbc : b = c
    · exact hbc ▸ .up hne hp h
    · obtain ⟨-, c', hp', hb'⟩ := hb.strict hbc
      rw [hp] at hp'
      cases hp'
      exact ih hb'

end Anc

theorem isAncestor_iff (ht : Tree t n) {fuel : Nat} (hf : b < fuel) :
    t.isAncestor fuel a b = true ↔ Anc t a b := by
  induction fuel generalizing b with
  | zero => omega
  | succ fuel ih =>
    simp only [isAncestor, Bool.or_eq_true, decide_eq_true_eq, Bool.and_eq_true, Option.any_eq_true]
    constructor
    · rintro (rfl | ⟨hb, c, hp, hc⟩)
      · exact .refl
      · have := (ht.below _ _ hb hp).1
        exact .up hb hp ((ih (by omega)).1 hc)
    · intro h
      by_cases hab : a = b
      · exact .inl hab
      · obtain ⟨hb, c, hp, hc⟩ := h.strict hab
        have := (ht.below _ _ hb hp).1
        exact .inr ⟨hb, c, hp, (ih (by omega)).2 hc⟩

theorem anc_zero (ht : Tree t n) (b : Nat) (hb : t.Placed b) : Anc t 0 b := by
  induction b using Nat.strong_induction_on with
  | _ b ih =>
    by_cases hne : b = 0
    · exact hne ▸ .refl
    · obtain ⟨c, hc⟩ := Option.isSome_iff_exists.1 hb
      obtain ⟨hlt, hpl⟩ := ht.below b c hne hc
      exact .up hne hc (ih c hlt hpl)

/-- The meet of two nodes is their greatest common ancestor. -/
theorem meet_spec (ht : Tree t n) (fuel a b : Nat) (hf : a + b ≤ fuel) (ha : t.Placed a)
    (hb : t.Placed b) :
    Anc t (t.meet fuel a b) a ∧ Anc t (t.meet fuel a b) b ∧
      ∀ x, Anc t x a → Anc t x b → Anc t x (t.meet fuel a b) := by
  induction fuel generalizing a b with
  | zero =>
    obtain ⟨rfl, rfl⟩ : a = 0 ∧ b = 0 := by omega
    exact ⟨.refl, .refl, fun _ h _ => h⟩
  | succ fuel ih =>
    rw [meet]
    split
    · subst b
      exact ⟨.refl, .refl, fun _ h _ => h⟩
    split
    · obtain ⟨p, hp⟩ := Option.isSome_iff_exists.1 ha
      have hne : a ≠ 0 := by omega
      have hlt := ht.below _ _ hne hp
      obtain ⟨h₁, h₂, h₃⟩ := ih p b (by omega) hlt.2 hb
      simp only [hp]
      refine ⟨.up hne hp h₁, h₂, fun x hxa hxb => h₃ x ?_ hxb⟩
      obtain ⟨-, q, hq, hx⟩ := hxa.strict (by have := hxb.le ht; omega)
      rw [hp] at hq
      exact Option.some.inj hq ▸ hx
    · obtain ⟨p, hp⟩ := Option.isSome_iff_exists.1 hb
      have hne : b ≠ 0 := by omega
      have hlt := ht.below _ _ hne hp
      obtain ⟨h₁, h₂, h₃⟩ := ih a p (by omega) ha hlt.2
      simp only [hp]
      refine ⟨h₁, .up hne hp h₂, fun x hxa hxb => h₃ x hxa ?_⟩
      obtain ⟨-, q, hq, hx⟩ := hxb.strict (by have := hxa.le ht; omega)
      rw [hp] at hq
      exact Option.some.inj hq ▸ hx

/-- `d` is the greatest node above all placed members of a list. -/
structure Common (t : Parents) (ps : List Nat) (d : Nat) : Prop where
  some : ∃ p ∈ ps, t.Placed p
  above : ∀ p ∈ ps, t.Placed p → Anc t d p
  greatest : ∀ x, (∀ p ∈ ps, t.Placed p → Anc t x p) → Anc t x d

theorem Common.placed (ht : Tree t n) (h : Common t ps d) : t.Placed d := by
  obtain ⟨p, hp, hpl⟩ := h.some
  exact (h.above p hp hpl).placed ht hpl

/-- One more member. -/
def gather (t : Parents) (best : Option Nat) (p : Nat) : Option Nat :=
  match t.parent? p, best with
  | none, _ => best
  | some _, none => some p
  | some _, some q => some (t.meet (2 * t.size) p q)

/-- What the members met so far make of the greatest node above them. -/
structure Met (t : Parents) (ps : List Nat) (best : Option Nat) : Prop where
  none : best = none → ∀ p ∈ ps, ¬ t.Placed p
  some : ∀ d, best = some d → Common t ps d

theorem met_nil : Met t [] none where
  none _ := nofun
  some := nofun

theorem Common.skip (h : Common t ps d) (hp : ¬ t.Placed p) : Common t (ps ++ [p]) d where
  some := by
    obtain ⟨q, hq, hpl⟩ := h.some
    exact ⟨q, List.mem_append_left _ hq, hpl⟩
  above q hq hpl := by
    rcases List.mem_append.1 hq with hq | hq
    · exact h.above q hq hpl
    · exact absurd (List.mem_singleton.1 hq ▸ hpl) hp
  greatest x hx := h.greatest x fun q hq => hx q (List.mem_append_left _ hq)

/-- The first placed member is the greatest node above itself. -/
theorem common_self (h : ∀ q ∈ ps, ¬ t.Placed q) (hp : t.Placed p) : Common t (ps ++ [p]) p where
  some := ⟨p, List.mem_append_right _ (List.mem_singleton_self p), hp⟩
  above q hq hpl := by
    rcases List.mem_append.1 hq with hq | hq
    · exact absurd hpl (h q hq)
    · exact List.mem_singleton.1 hq ▸ .refl
  greatest _ hx := hx p (List.mem_append_right _ (List.mem_singleton_self p)) hp

theorem Common.meet (ht : Tree t n) (h : Common t ps d) (hp : t.Placed p) :
    Common t (ps ++ [p]) (t.meet (2 * t.size) p d) := by
  have hd := h.placed ht
  have hlp := lt_of_placed ht hp
  have hld := lt_of_placed ht hd
  obtain ⟨hmp, hmd, hmost⟩ := meet_spec ht (2 * t.size) p d (by rw [ht.size]; omega) hp hd
  have hmem : p ∈ ps ++ [p] := List.mem_append_right _ (List.mem_singleton_self p)
  refine ⟨⟨p, hmem, hp⟩, fun q hq hpl => ?_, fun x hx => hmost x (hx p hmem hp) ?_⟩
  · rcases List.mem_append.1 hq with hq | hq
    · exact hmd.trans (h.above q hq hpl)
    · exact List.mem_singleton.1 hq ▸ hmp
  · exact h.greatest x fun q hq => hx q (List.mem_append_left _ hq)

theorem Met.gather (ht : Tree t n) (h : Met t ps best) (p : Nat) :
    Met t (ps ++ [p]) (t.gather best p) := by
  cases hp : t.parent? p with
  | none =>
    have hpl : ¬ t.Placed p := by simp [Placed, hp]
    simp only [Parents.gather, hp]
    refine ⟨fun hb q hq => ?_, fun d hd => (h.some d hd).skip hpl⟩
    rcases List.mem_append.1 hq with hq | hq
    · exact h.none hb q hq
    · exact List.mem_singleton.1 hq ▸ hpl
  | some c =>
    have hpl : t.Placed p := by simp [Placed, hp]
    cases best with
    | none =>
      simp only [Parents.gather, hp]
      refine ⟨nofun, fun d hd => ?_⟩
      exact Option.some.inj hd ▸ common_self (h.none rfl) hpl
    | some q =>
      simp only [Parents.gather, hp]
      refine ⟨nofun, fun d hd => ?_⟩
      exact Option.some.inj hd ▸ (h.some q rfl).meet ht hpl

theorem Met.foldl (ht : Tree t n) (h : Met t done best) (ps : List Nat) :
    Met t (done ++ ps) (ps.foldl t.gather best) := by
  induction ps generalizing done best with
  | nil => rwa [List.append_nil]
  | cons p ps ih =>
    rw [List.foldl_cons, List.append_cons]
    exact ih (h.gather ht p)

theorem met_common? (ht : Tree t n) (ps : List Nat) : Met t ps (t.common? ps) :=
  met_nil.foldl ht ps

theorem common?_spec (ht : Tree t n) (ps : List Nat) (hps : ∃ p ∈ ps, t.Placed p) :
    ∃ d, t.common? ps = some d ∧ Common t ps d := by
  have hmet := met_common? ht ps
  obtain ⟨p, hp, hpl⟩ := hps
  cases hr : t.common? ps with
  | none => exact absurd hpl (hmet.none hr p hp)
  | some d => exact ⟨d, rfl, hmet.some d hr⟩

/-! Moving one node. -/

theorem parent?_set (ht : Tree t n) (hj : j < n) :
    parent? (t.setIfInBounds j (some d)) b = if b = j then some d else t.parent? b := by
  unfold parent?
  rw [Array.getElem?_setIfInBounds, ht.size]
  by_cases h : b = j
  · subst b
    simp [hj]
  · simp [h, Ne.symm h]

theorem set_eq_self_iff (ht : Tree t n) (hj : j < n) :
    t.setIfInBounds j (some d) = t ↔ t.parent? j = some d := by
  constructor
  · intro h
    rw [← h, parent?_set ht hj, if_pos rfl]
  · intro h
    refine Parents.ext Array.size_setIfInBounds fun i => ?_
    rw [parent?_set ht hj]
    split
    · subst i
      exact h.symm
    · rfl

section Move

variable (ht : Tree t n) (hj : 0 < j) (hjn : j < n) (hd : d < j) (hpd : t.Placed d)

include ht hj hjn hd hpd

theorem Tree.set : Tree (t.setIfInBounds j (some d)) n where
  size := by rw [Array.size_setIfInBounds, ht.size]
  root := by rw [parent?_set ht hjn, if_neg (by omega), ht.root]
  below b c hb hc := by
    have hmono : ∀ e, t.Placed e → Placed (t.setIfInBounds j (some d)) e := by
      intro e he
      rw [Placed, parent?_set ht hjn]
      split
      · rfl
      · exact he
    rw [parent?_set ht hjn] at hc
    split at hc
    · cases hc
      subst b
      exact ⟨hd, hmono _ hpd⟩
    · have := ht.below b c hb hc
      exact ⟨this.1, hmono _ this.2⟩

omit hj hd hpd

/-- A chain that does not go through `j` stays. -/
theorem Anc.kept (h : Anc t a b) (hja : Anc t j b → Anc t j a) :
    Anc (t.setIfInBounds j (some d)) a b := by
  induction h with
  | refl => exact .refl
  | @up b c hb hp h ih =>
    have hbj : b ≠ j := by
      rintro rfl
      have := (hja .refl).le ht
      have := h.le ht
      have := (ht.below _ _ hb hp).1
      omega
    exact .up hb (by rw [parent?_set ht hjn, if_neg hbj, hp]) (ih fun hc => hja (.up hb hp hc))

include hd

theorem anc_of_set (h : Anc (t.setIfInBounds j (some d)) a b) :
    Anc t a b ∧ (Anc t j b → Anc t j a) ∨ Anc t j b ∧ Anc t a d := by
  induction h with
  | refl => exact .inl ⟨.refl, id⟩
  | @up b c hb hp _ ih =>
    rw [parent?_set ht hjn] at hp
    split at hp
    case isTrue hbj =>
      cases hp
      subst b
      rcases ih with ih | ih
      · exact .inr ⟨.refl, ih.1⟩
      · have := ih.1.le ht
        omega
    case isFalse hbj =>
      rcases ih with ⟨hac, hja⟩ | ⟨hjc, had⟩
      · refine .inl ⟨.up hb hp hac, fun hjb => hja ?_⟩
        obtain ⟨-, c', hp', hc'⟩ := hjb.strict (Ne.symm hbj)
        rw [hp] at hp'
        exact Option.some.inj hp' ▸ hc'
      · exact .inr ⟨.up hb hp hjc, had⟩

include hj

/-- Below `j` the chain goes on at `d`; everything else is as it was. -/
theorem anc_set : Anc (t.setIfInBounds j (some d)) a b ↔
    Anc t a b ∧ (Anc t j b → Anc t j a) ∨ Anc t j b ∧ Anc t a d := by
  refine ⟨anc_of_set ht hjn hd, ?_⟩
  rintro (⟨hab, hja⟩ | ⟨hjb, had⟩)
  · exact hab.kept ht hjn hja
  · induction hjb with
    | refl =>
      refine .up hj.ne' (by rw [parent?_set ht hjn, if_pos rfl]) (had.kept ht hjn fun h => ?_)
      have := h.le ht
      omega
    | @up b c hb hp h ih =>
      have hbj : b ≠ j := by
        have := h.le ht
        have := (ht.below _ _ hb hp).1
        omega
      exact .up hb (by rw [parent?_set ht hjn, if_neg hbj, hp]) ih

end Move

/-! The two invariants. -/

variable {preds : Array (List Nat)}

/-- The edges of a graph of numbered nodes given by lists of predecessors. -/
def Arc (preds : Array (List Nat)) (p j : Nat) : Prop := p ∈ preds[j]?.getD []

/-- No walk from the root to `b` avoids `x`. -/
def Must (preds : Array (List Nat)) (x b : Nat) : Prop := ¬ Walk (Arc preds) (· ≠ x) 0 b

theorem Must.pred (h : Must preds x j) (hne : x ≠ j) (hp : Arc preds p j) : Must preds x p :=
  fun hw => h (.tail hw hp hne.symm)

theorem Must.eq_zero (h : Must preds x 0) : x = 0 := by
  by_contra hne
  exact h (.refl (Ne.symm hne))

/-- Dominators are ancestors, and what lies between is dominated as well. -/
def Sound (preds : Array (List Nat)) (t : Parents) : Prop :=
  ∀ b, t.Placed b → ∀ x, Must preds x b →
    Anc t x b ∧ ∀ y, Anc t y b → x ≤ y → Must preds x y

/-- A walk from the root that avoids `a` and `r` times goes to a number that is not larger. -/
inductive Avoid (preds : Array (List Nat)) (a : Nat) : Nat → Nat → Prop
  | root : a ≠ 0 → Avoid preds a 0 0
  | forward {r p j : Nat} : Avoid preds a r p → Arc preds p j → p < j → a ≠ j → Avoid preds a r j
  | retreat {r p j : Nat} : Avoid preds a r p → Arc preds p j → j ≤ p → a ≠ j →
    Avoid preds a (r + 1) j

/-- An ancestor of `b` lies on all walks that go back fewer than `m b` times. -/
structure Sharp (preds : Array (List Nat)) (m : Nat → Nat) (t : Parents) : Prop where
  placed : ∀ b, 0 < m b → b < t.size → t.Placed b
  anc : ∀ a b r, Avoid preds a r b → r < m b → ¬ Anc t a b

theorem Avoid.ne {r : Nat} (h : Avoid preds a r b) : a ≠ b := by
  cases h <;> assumption

/-- A walk that avoids `a` also avoids `j`, or it has a part that leads to `j`. -/
theorem Avoid.visit {r : Nat} (h : Avoid preds a r b) (j : Nat) :
    Avoid preds j r b ∨ ∃ r' ≤ r, Avoid preds a r' j := by
  induction h with
  | root ha =>
    by_cases hj : j = 0
    · subst j
      exact .inr ⟨0, le_rfl, .root ha⟩
    · exact .inl (.root hj)
  | @forward r p b hw he hlt ha ih =>
    by_cases hj : j = b
    · exact .inr ⟨r, le_rfl, hj ▸ .forward hw he hlt ha⟩
    · rcases ih with ih | ⟨r', hr, ih⟩
      · exact .inl (.forward ih he hlt hj)
      · exact .inr ⟨r', hr, ih⟩
  | @retreat r p b hw he hle ha ih =>
    by_cases hj : j = b
    · exact .inr ⟨r + 1, le_rfl, hj ▸ .retreat hw he hle ha⟩
    · rcases ih with ih | ⟨r', hr, ih⟩
      · exact .inl (.retreat ih he hle hj)
      · exact .inr ⟨r', by omega, ih⟩

theorem Avoid.of_walk (h : Walk (Arc preds) (· ≠ a) 0 b) : ∃ r, Avoid preds a r b := by
  induction h with
  | refl ha => exact ⟨0, .root (Ne.symm ha)⟩
  | @tail b c _ he hc ih =>
    obtain ⟨r, hr⟩ := ih
    by_cases hlt : b < c
    · exact ⟨r, .forward hr he hlt (Ne.symm hc)⟩
    · exact ⟨r + 1, .retreat hr he (by omega) (Ne.symm hc)⟩

/-- What dominates `j` is above `d` and dominates `d`. -/
theorem Sound.below {x : Nat} (hs : Sound preds t) (ht : Tree t n)
    (hc : Common t (preds[j]?.getD []) d) (hx : Must preds x j) (hne : x ≠ j) :
    Anc t x d ∧ Must preds x d := by
  obtain ⟨p, hp, hpp⟩ := hc.some
  have hxd : Anc t x d := hc.greatest x fun q hq hpq => (hs q hpq x (hx.pred hne hq)).1
  exact ⟨hxd, (hs p hpp x (hx.pred hne hp)).2 d (hc.above p hp hpp) (hxd.le ht)⟩

section Update

variable (ht : Tree t n) (hjn : j < n) (hj : 0 < j) (hc : Common t (preds[j]?.getD []) d)
  (hlt : d < j)

include ht hjn hj hc hlt

theorem Sound.set (hs : Sound preds t) : Sound preds (t.setIfInBounds j (some d)) := by
  have hpd := hc.placed ht
  have hdom := fun x => hs.below (x := x) ht hc
  intro b hb x hx
  by_cases hbj : b = j
  · subst b
    by_cases hxj : x = j
    · subst x
      refine ⟨.refl, fun y hy hle => ?_⟩
      have := hy.eq_of_le (ht.set hj hjn hlt hpd) hle
      exact this ▸ hx
    · obtain ⟨hxd, hmd⟩ := hdom x hx hxj
      refine ⟨(anc_set ht hj hjn hlt).2 (.inr ⟨.refl, hxd⟩), fun y hy hle => ?_⟩
      rcases (anc_set ht hj hjn hlt).1 hy with ⟨hyj, hjy⟩ | ⟨-, hyd⟩
      · have := hyj.eq_of_le ht ((hjy .refl).le ht)
        exact this ▸ hx
      · exact (hs d hpd x hmd).2 y hyd hle
  · have hb' : t.Placed b := by
      rw [Placed, parent?_set ht hjn, if_neg hbj] at hb
      exact hb
    obtain ⟨hxb, hbetween⟩ := hs b hb' x hx
    constructor
    · refine (anc_set ht hj hjn hlt).2 ?_
      by_cases hjb : Anc t j b
      · by_cases hle : j ≤ x
        · exact .inl ⟨hxb, fun _ => Anc.chain ht hjb hxb hle⟩
        · have hxj := hbetween j hjb (by omega)
          exact .inr ⟨hjb, (hdom x hxj (by omega)).1⟩
      · exact .inl ⟨hxb, fun h => absurd h hjb⟩
    · intro y hy hle
      rcases (anc_set ht hj hjn hlt).1 hy with ⟨hyb, -⟩ | ⟨hjb, hyd⟩
      · exact hbetween y hyb hle
      · have := hyd.le ht
        have hxj := hbetween j hjb (by omega)
        exact (hs d hpd x (hdom x hxj (by omega)).2).2 y hyd hle

section

variable {k : Nat} (harc : ∀ p j, Arc preds p j → p < n)
  (hs : Sharp preds (fun b => if b < j then k + 1 else k) t)

include harc hs

omit hlt in
/-- A walk that reaches `j` without `a` comes from a predecessor below `d` that has no `a` above. -/
theorem Sharp.not_anc {r : Nat} (hw : Avoid preds a r j) (hr : r < k + 1) : ¬ Anc t a d := by
  intro had
  cases hw with
  | root => omega
  | @forward _ q _ hwq he hqj _ =>
    have hq : t.Placed q := by
      refine hs.placed q ?_ (by rw [ht.size]; omega)
      rw [if_pos hqj]
      omega
    refine hs.anc a q r hwq ?_ (had.trans (hc.above q he hq))
    rwa [if_pos hqj]
  | @retreat r' q _ hwq he hqj _ =>
    have hq : t.Placed q := by
      refine hs.placed q ?_ (by rw [ht.size]; exact harc q j he)
      rw [if_neg (by omega)]
      omega
    refine hs.anc a q r' hwq ?_ (had.trans (hc.above q he hq))
    rw [if_neg (by omega)]
    omega

theorem Sharp.set :
    Sharp preds (fun b => if b < j + 1 then k + 1 else k) (t.setIfInBounds j (some d)) := by
  have hm : ∀ b, b ≠ j → (if b < j + 1 then k + 1 else k) = if b < j then k + 1 else k := by
    intro b hb
    have : b < j + 1 ↔ b < j := by omega
    simp only [this]
  constructor
  · intro b hb hsize
    rw [Placed, parent?_set ht hjn]
    split
    · rfl
    case isFalse hbj =>
      refine hs.placed b ?_ (by simpa using hsize)
      rwa [hm b hbj] at hb
  · intro a b r hw hr hanc
    rcases (anc_set ht hj hjn hlt).1 hanc with ⟨hab, hja⟩ | ⟨hjb, had⟩
    · by_cases hbj : b = j
      · subst b
        exact hw.ne (hab.eq_of_le ht ((hja .refl).le ht))
      · refine hs.anc a b r hw ?_ hab
        rwa [← hm b hbj]
    · by_cases hbj : b = j
      · subst b
        rw [if_pos (by omega)] at hr
        exact hs.not_anc ht hjn hj hc harc hw hr had
      · rw [hm b hbj] at hr
        rcases hw.visit j with hw' | ⟨r', hr', hw'⟩
        · exact hs.anc j b r hw' hr hjb
        · refine hs.not_anc ht hjn hj hc harc hw' ?_ had
          split at hr <;> omega

end

end Update

end LoopFusion.Flow.Parents
