import LoopFusion.Flow.Traversal
import Mathlib.Data.List.Nodup
import Mathlib.Logic.Relation

/-!
What a depth-first search leaves: every node that can be reached, each once, in an order in which
a node stands behind the one it was first met from.
-/

namespace LoopFusion.Flow

open Relation

variable {ν : Type} {next : ν → List ν}

/-- An edge of the graph with these adjacency lists. -/
def Edge (next : ν → List ν) (a b : ν) : Prop := b ∈ next a

abbrev Reach (next : ν → List ν) : ν → ν → Prop := ReflTransGen (Edge next)

theorem append_eq_split {s t l r : List ν} {x : ν} (h : s ++ t = l ++ x :: r) :
    (∃ m, l = s ++ m ∧ t = m ++ x :: r) ∨ ∃ m, s = l ++ x :: m ∧ r = m ++ t := by
  rcases List.append_eq_append_iff.1 h with ⟨m, hl, ht⟩ | ⟨m, hs, hr⟩
  · exact .inl ⟨m, hl, ht⟩
  · cases m with
    | nil => exact .inl ⟨[], by simpa using hs.symm, by simpa using hr.symm⟩
    | cons y m =>
      obtain ⟨rfl, rfl⟩ := List.cons.inj hr
      exact .inr ⟨m, hs, rfl⟩

/-- How a search from `roots` takes `s` to `s'`, leaving the nodes `new` for good. -/
structure Grows (next : ν → List ν) (roots : List ν) (s s' : Visit ν) (new : List ν) : Prop where
  order : s'.order = new ++ s.order
  seen : ∀ x, x ∈ s'.seen ↔ x ∈ new ∨ x ∈ s.seen
  nodup : new.Nodup
  fresh : ∀ x ∈ new, x ∉ s.seen
  reach : ∀ x ∈ new, ∃ r ∈ roots, Reach next r x
  closed : ∀ x ∈ new, ∀ y ∈ next x, y ∈ new ∨ y ∈ s.seen
  /-- An edge to a node that is left later runs inside a cycle. -/
  retreat : ∀ l x r, new = l ++ x :: r → ∀ y ∈ next x, y ∈ r ∨ y ∈ s.seen ∨ Reach next y x
  /-- A node that is no root has a neighbour that is left later. -/
  parent : ∀ l x r, new = l ++ x :: r → x ∈ roots ∨ ∃ y ∈ l, x ∈ next y

namespace Grows

variable {roots : List ν} {s s' s'' : Visit ν} {new new' : List ν}

theorem refl (s : Visit ν) : Grows next roots s s [] := by
  constructor <;> simp

theorem mono {roots' : List ν} (h : Grows next roots s s' new) (hr : roots ⊆ roots') :
    Grows next roots' s s' new where
  order := h.order
  seen := h.seen
  nodup := h.nodup
  fresh := h.fresh
  reach x hx := by
    obtain ⟨r, hr', hrx⟩ := h.reach x hx
    exact ⟨r, hr hr', hrx⟩
  closed := h.closed
  retreat := h.retreat
  parent l x r he := (h.parent l x r he).imp_left (hr ·)

theorem trans (h : Grows next roots s s' new) (h' : Grows next roots s' s'' new') :
    Grows next roots s s'' (new' ++ new) where
  order := by rw [h'.order, h.order, List.append_assoc]
  seen x := by rw [h'.seen, h.seen, List.mem_append, or_assoc]
  nodup := by
    refine List.nodup_append.2 ⟨h'.nodup, h.nodup, fun x hx y hy he => ?_⟩
    exact h'.fresh x hx ((h.seen x).2 (.inl (he ▸ hy)))
  fresh x hx := by
    rcases List.mem_append.1 hx with hx | hx
    · exact fun hs => h'.fresh x hx ((h.seen x).2 (.inr hs))
    · exact h.fresh x hx
  reach x hx := by
    rcases List.mem_append.1 hx with hx | hx
    · exact h'.reach x hx
    · exact h.reach x hx
  closed x hx y hy := by
    rw [List.mem_append]
    rcases List.mem_append.1 hx with hx | hx
    · have := h'.closed x hx y hy
      rw [h.seen] at this
      tauto
    · have := h.closed x hx y hy
      tauto
  retreat l x r he y hy := by
    rcases append_eq_split he with ⟨m, rfl, hm⟩ | ⟨m, hm, rfl⟩
    · exact h.retreat m x r hm y hy
    · have := h'.retreat l x m hm y hy
      rw [h.seen] at this
      rw [List.mem_append]
      tauto
  parent l x r he := by
    rcases append_eq_split he with ⟨m, rfl, hm⟩ | ⟨m, hm, rfl⟩
    · refine (h.parent m x r hm).imp_right ?_
      rintro ⟨y, hy, hxy⟩
      exact ⟨y, List.mem_append_right _ hy, hxy⟩
    · exact h'.parent l x m hm

theorem reach_from {n x : ν} (h : Grows next (next n) s s' new) (hx : x ∈ new) :
    Reach next n x := by
  obtain ⟨r, hr, hrx⟩ := h.reach x hx
  exact .head hr hrx

/-- Entering `n`, searching from its neighbours and leaving it. -/
theorem enter {n : ν} (hn : n ∉ s.seen)
    (h : Grows next (next n) { s with seen := n :: s.seen } s' new)
    (hnext : ∀ y ∈ next n, y ∈ s'.seen) :
    Grows next [n] s { s' with order := n :: s'.order } (n :: new) where
  order := by simp [h.order]
  seen x := by
    rw [h.seen, List.mem_cons, List.mem_cons]
    tauto
  nodup := List.nodup_cons.2 ⟨fun hx => h.fresh n hx (List.mem_cons_self ..), h.nodup⟩
  fresh x hx := by
    rcases List.mem_cons.1 hx with rfl | hx
    · exact hn
    · exact fun hs => h.fresh x hx (List.mem_cons_of_mem _ hs)
  reach x hx := by
    refine ⟨n, List.mem_singleton_self _, ?_⟩
    rcases List.mem_cons.1 hx with rfl | hx
    · exact .refl
    · exact h.reach_from hx
  closed x hx y hy := by
    rw [List.mem_cons]
    rcases List.mem_cons.1 hx with rfl | hx
    · have := (h.seen y).1 (hnext y hy)
      rw [List.mem_cons] at this
      tauto
    · have := h.closed x hx y hy
      rw [List.mem_cons] at this
      tauto
  retreat l x r he y hy := by
    cases l with
    | nil =>
      obtain ⟨rfl, rfl⟩ := List.cons.inj he
      have := (h.seen y).1 (hnext y hy)
      rw [List.mem_cons] at this
      rcases this with hy | rfl | hy
      · exact .inl hy
      · exact .inr (.inr .refl)
      · exact .inr (.inl hy)
    | cons z l =>
      obtain ⟨rfl, rfl⟩ := List.cons.inj he
      rcases h.retreat l x r rfl y hy with hy | hy | hy
      · exact .inl hy
      · rcases List.mem_cons.1 hy with rfl | hy
        · exact .inr (.inr (h.reach_from (by simp)))
        · exact .inr (.inl hy)
      · exact .inr (.inr hy)
  parent l x r he := by
    cases l with
    | nil =>
      obtain ⟨rfl, rfl⟩ := List.cons.inj he
      exact .inl (List.mem_cons_self ..)
    | cons z l =>
      obtain ⟨rfl, rfl⟩ := List.cons.inj he
      rcases h.parent l x r rfl with hx | ⟨y, hy, hxy⟩
      · exact .inr ⟨n, List.mem_cons_self .., hx⟩
      · exact .inr ⟨y, List.mem_cons_of_mem _ hy, hxy⟩

end Grows

variable [DecidableEq ν]

/-- How many nodes of `all` have not been met. -/
def unseen (all : List ν) (s : Visit ν) : Nat := (all.filter (· ∉ s.seen)).length

theorem unseen_le {all : List ν} {s s' : Visit ν} (h : ∀ x, x ∈ s.seen → x ∈ s'.seen) :
    unseen all s' ≤ unseen all s := by
  refine (List.monotone_filter_right all fun x hx => ?_).length_le
  simp only [decide_eq_true_eq] at hx ⊢
  exact fun hs => hx (h x hs)

theorem unseen_lt {all : List ν} {s : Visit ν} {n : ν} (ha : n ∈ all) (hn : n ∉ s.seen) :
    unseen all { s with seen := n :: s.seen } < unseen all s := by
  have hf : all.filter (· ∉ n :: s.seen) = (all.filter (· ∉ s.seen)).filter (· ≠ n) := by
    rw [List.filter_filter]
    congr 1
    ext x
    simp
  have hm : n ∈ all.filter (· ∉ s.seen) := List.mem_filter.2 ⟨ha, by simpa using hn⟩
  have hlt := List.length_filter_lt_length_iff_exists (p := (· ≠ n)) |>.2 ⟨n, hm, by simp⟩
  unfold unseen
  rw [hf]
  exact hlt

/-- Enough fuel for the nodes not yet met makes a search complete; `all` holds every node. -/
theorem grows_foldl {all : List ν} {fuel : Nat}
    (hvisit : ∀ (s : Visit ν) (n : ν), n ∈ all → unseen all s < fuel →
      ∃ new, Grows next [n] s (visit next fuel s n) new ∧ n ∈ (visit next fuel s n).seen)
    (ns : List ν) (hns : ∀ n ∈ ns, n ∈ all) (s : Visit ν) (hf : unseen all s < fuel) :
    ∃ new, Grows next ns s (ns.foldl (visit next fuel) s) new ∧
      ∀ n ∈ ns, n ∈ (ns.foldl (visit next fuel) s).seen := by
  induction ns generalizing s with
  | nil => exact ⟨[], .refl s, by simp⟩
  | cons n ns ih =>
    obtain ⟨new, hg, hn⟩ := hvisit s n (hns n (List.mem_cons_self ..)) hf
    have hf' : unseen all (visit next fuel s n) < fuel :=
      Nat.lt_of_le_of_lt (unseen_le fun x hx => (hg.seen x).2 (.inr hx)) hf
    obtain ⟨new', hg', hns'⟩ := ih (fun m hm => hns m (List.mem_cons_of_mem _ hm)) _ hf'
    refine ⟨new' ++ new, (hg.mono (by simp)).trans (hg'.mono (by simp)), fun m hm => ?_⟩
    rcases List.mem_cons.1 hm with rfl | hm
    · exact (hg'.seen _).2 (.inr hn)
    · exact hns' m hm

theorem grows_visit {all : List ν} (hall : ∀ x ∈ all, ∀ y ∈ next x, y ∈ all) (fuel : Nat)
    (s : Visit ν) (n : ν) (hn : n ∈ all) (hf : unseen all s < fuel) :
    ∃ new, Grows next [n] s (visit next fuel s n) new ∧ n ∈ (visit next fuel s n).seen := by
  induction fuel generalizing s n with
  | zero => omega
  | succ fuel ih =>
    rw [visit]
    split
    case isTrue h => exact ⟨[], .refl s, h⟩
    case isFalse h =>
      have hlt := unseen_lt hn h
      obtain ⟨new, hg, hnew⟩ := grows_foldl ih (next n) (hall n hn) { s with seen := n :: s.seen }
        (by omega)
      refine ⟨n :: new, hg.enter h hnew, ?_⟩
      exact (hg.seen n).2 (.inr (List.mem_cons_self ..))

section SearchFrom

variable {all roots : List ν} {bound : Nat}

theorem grows_searchFrom (hall : ∀ x ∈ all, ∀ y ∈ next x, y ∈ all) (hroots : ∀ r ∈ roots, r ∈ all)
    (hb : all.length < bound) :
    ∃ s', Grows next roots ⟨[], []⟩ s' (searchFrom next bound roots) ∧
      ∀ r ∈ roots, r ∈ searchFrom next bound roots := by
  have hf : unseen all (⟨[], []⟩ : Visit ν) < bound :=
    Nat.lt_of_le_of_lt (List.length_filter_le _ _) hb
  obtain ⟨new, hg, hr⟩ := grows_foldl (grows_visit hall bound) roots hroots _ hf
  have he : new = searchFrom next bound roots := by
    rw [searchFrom, hg.order, List.append_nil]
  refine ⟨_, he ▸ hg, fun r hr' => ?_⟩
  have := (hg.seen r).1 (hr r hr')
  rw [← he]
  simpa using this

theorem nodup_searchFrom (hall : ∀ x ∈ all, ∀ y ∈ next x, y ∈ all) (hroots : ∀ r ∈ roots, r ∈ all)
    (hb : all.length < bound) : (searchFrom next bound roots).Nodup := by
  obtain ⟨s', hg, -⟩ := grows_searchFrom hall hroots hb
  exact hg.nodup

/-- A search finds exactly what can be reached. -/
theorem mem_searchFrom (hall : ∀ x ∈ all, ∀ y ∈ next x, y ∈ all) (hroots : ∀ r ∈ roots, r ∈ all)
    (hb : all.length < bound) {x : ν} :
    x ∈ searchFrom next bound roots ↔ ∃ r ∈ roots, Reach next r x := by
  obtain ⟨s', hg, hr⟩ := grows_searchFrom hall hroots hb
  refine ⟨hg.reach x, ?_⟩
  rintro ⟨r, hr', hrx⟩
  induction hrx with
  | refl => exact hr r hr'
  | tail _ he ih =>
    have := hg.closed _ ih _ he
    simpa using this

end SearchFrom

section Postorder

variable {all : List ν} {bound : Nat} {root : ν}

theorem mem_reversePostorder (hall : ∀ x ∈ all, ∀ y ∈ next x, y ∈ all) (hroot : root ∈ all)
    (hb : all.length < bound) {x : ν} :
    x ∈ reversePostorder next bound root ↔ Reach next root x := by
  rw [reversePostorder, mem_searchFrom hall (by simpa using hroot) hb]
  simp

theorem nodup_reversePostorder (hall : ∀ x ∈ all, ∀ y ∈ next x, y ∈ all) (hroot : root ∈ all)
    (hb : all.length < bound) : (reversePostorder next bound root).Nodup :=
  nodup_searchFrom hall (by simpa using hroot) hb

theorem exists_earlier_pred (hall : ∀ x ∈ all, ∀ y ∈ next x, y ∈ all) (hroot : root ∈ all)
    (hb : all.length < bound) {l r : List ν} {x : ν}
    (he : reversePostorder next bound root = l ++ x :: r) (hx : x ≠ root) :
    ∃ y ∈ l, x ∈ next y := by
  obtain ⟨s', hg, -⟩ := grows_searchFrom hall (List.forall_mem_singleton.2 hroot) hb
  refine (hg.parent l x r he).resolve_left ?_
  simpa using hx

theorem reversePostorder_eq_cons (hall : ∀ x ∈ all, ∀ y ∈ next x, y ∈ all) (hroot : root ∈ all)
    (hb : all.length < bound) : ∃ r, reversePostorder next bound root = root :: r := by
  have hm : root ∈ reversePostorder next bound root :=
    (mem_reversePostorder hall hroot hb).2 .refl
  cases ho : reversePostorder next bound root with
  | nil => simp [ho] at hm
  | cons x r =>
    by_cases hx : x = root
    · exact ⟨r, hx ▸ rfl⟩
    · obtain ⟨y, hy, -⟩ := exists_earlier_pred (l := []) hall hroot hb ho hx
      simp at hy

end Postorder

end LoopFusion.Flow
