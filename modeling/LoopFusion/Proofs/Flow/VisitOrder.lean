import LoopFusion.Proofs.Flow.ExactDominance

/-!
What the reverse postorder says of dominance. A dominator stands before what it dominates; and what
stands between a dominator and a block it dominates was met on the way from the one, without the
other.
-/

namespace LoopFusion

open Relation

section Lists

variable {α β : Type} {l l' : List α} {a b c : α}

/-- An occurrence of `a` stands before one of `b`. -/
def Precedes (l : List α) (a b : α) : Prop := [a, b].Sublist l

theorem Precedes.mono (h : Precedes l a b) (hs : l.Sublist l') : Precedes l' a b := h.trans hs

theorem Precedes.map (h : Precedes l a b) (g : α → β) : Precedes (l.map g) (g a) (g b) :=
  List.Sublist.map g h

theorem precedes_iff : Precedes l a b ↔ ∃ i j : Nat, i < j ∧ l[i]? = some a ∧ l[j]? = some b := by
  constructor
  · intro h
    obtain ⟨s, t, rfl, ha, hb⟩ := List.cons_sublist_iff.1 h
    obtain ⟨i, hi⟩ := List.mem_iff_getElem?.1 ha
    obtain ⟨j, hj⟩ := List.mem_iff_getElem?.1 (List.singleton_sublist.1 hb)
    have hlt := (List.getElem?_eq_some_iff.1 hi).1
    refine ⟨i, s.length + j, by omega, ?_, ?_⟩
    · rw [List.getElem?_append_left hlt, hi]
    · rw [List.getElem?_append_right (by omega), Nat.add_sub_cancel_left, hj]
  · rintro ⟨i, j, hij, hi, hj⟩
    rw [← List.take_append_drop j l]
    refine List.cons_sublist_iff.2 ⟨_, _, rfl, ?_, List.singleton_sublist.2 ?_⟩
    · refine List.mem_iff_getElem?.2 ⟨i, ?_⟩
      rw [List.getElem?_take_of_lt hij, hi]
    · refine List.mem_iff_getElem?.2 ⟨0, ?_⟩
      rw [List.getElem?_drop, Nat.add_zero, hj]

theorem precedes_append (ha : a ∈ l) (hb : b ∈ l') : Precedes (l ++ l') a b :=
  List.cons_sublist_iff.2 ⟨l, l', rfl, ha, List.singleton_sublist.2 hb⟩

theorem Precedes.right_mem (h : Precedes l a b) : b ∈ l := h.subset (by simp)

theorem Precedes.total (ha : a ∈ l) (hb : b ∈ l) (hne : a ≠ b) :
    Precedes l a b ∨ Precedes l b a := by
  obtain ⟨i, hi⟩ := List.mem_iff_getElem?.1 ha
  obtain ⟨j, hj⟩ := List.mem_iff_getElem?.1 hb
  rcases Nat.lt_trichotomy i j with hij | rfl | hij
  · exact .inl (precedes_iff.2 ⟨i, j, hij, hi, hj⟩)
  · exact absurd (Option.some.inj (hi.symm.trans hj)) hne
  · exact .inr (precedes_iff.2 ⟨j, i, hij, hj, hi⟩)

theorem place_eq (hl : l.Nodup) {i j : Nat} (hi : l[i]? = some a) (hj : l[j]? = some a) : i = j :=
  (List.getElem?_inj (List.getElem?_eq_some_iff.1 hi).1 hl).1 (hi.trans hj.symm)

theorem Precedes.ne (h : Precedes l a b) (hl : l.Nodup) : a ≠ b := by
  rintro rfl
  exact List.nodup_iff_sublist.1 hl a h

theorem Precedes.asymm (h : Precedes l a b) (hl : l.Nodup) : ¬ Precedes l b a := by
  intro h'
  obtain ⟨i, j, hij, hi, hj⟩ := precedes_iff.1 h
  obtain ⟨j', i', hji, hj', hi'⟩ := precedes_iff.1 h'
  have := place_eq hl hi hi'
  have := place_eq hl hj hj'
  omega

theorem Precedes.exists_split (h : Precedes l a b) : ∃ s t, l = s ++ a :: t ∧ b ∈ t := by
  obtain ⟨s, t, rfl, ha, hb⟩ := List.cons_sublist_iff.1 h
  obtain ⟨s₁, s₂, rfl⟩ := List.append_of_mem ha
  refine ⟨s₁, s₂ ++ t, by simp, ?_⟩
  exact List.mem_append_right _ (List.singleton_sublist.1 hb)

theorem Precedes.exists_between (h : Precedes l a b) (h' : Precedes l b c) (hl : l.Nodup) :
    ∃ s m t, l = s ++ a :: (m ++ c :: t) ∧ b ∈ m := by
  obtain ⟨s, t, rfl, hb⟩ := h.exists_split
  obtain ⟨t₁, t₂, rfl⟩ := List.append_of_mem hb
  have hc : c ∈ t₂ := by
    have hmem : c ∈ (s ++ a :: t₁) ∨ c ∈ b :: t₂ := by
      have := h'.right_mem
      simp only [List.mem_append, List.mem_cons] at this ⊢
      tauto
    rcases hmem with hc | hc
    · have hcb : Precedes ((s ++ a :: t₁) ++ b :: t₂) c b :=
        precedes_append hc (List.mem_cons_self ..)
      rw [List.append_assoc] at hcb
      exact absurd hcb (h'.asymm hl)
    · exact (List.mem_cons.1 hc).resolve_left (h'.ne hl).symm
  obtain ⟨m, u, rfl⟩ := List.append_of_mem hc
  exact ⟨s, t₁ ++ b :: m, u, by simp, by simp⟩

theorem Precedes.mem_piece {s t : List α} (hl : (s ++ (l ++ t)).Nodup) (ha : a ∈ l) (hc : c ∈ l)
    (h : Precedes (s ++ (l ++ t)) a b) (h' : Precedes (s ++ (l ++ t)) b c) : b ∈ l := by
  rcases List.mem_append.1 h.right_mem with hb | hb
  · exact absurd (precedes_append hb (List.mem_append_left t ha)) (h.asymm hl)
  · rcases List.mem_append.1 hb with hb | hb
    · exact hb
    · have hcb := precedes_append (List.mem_append_right s hc) hb
      rw [List.append_assoc] at hcb
      exact absurd hcb (h'.asymm hl)

end Lists

namespace Flow

variable {ν : Type} {next : ν → List ν} {roots : List ν} {s s' s'' : Visit ν} {new new' : List ν}

/-- The nodes that a search leaves, with the ways on which it met them. -/
structure Lays (next : ν → List ν) (roots : List ν) (s s' : Visit ν) (new : List ν) : Prop
    extends Grows next roots s s' new where
  met : ∀ r ∈ roots, r ∈ s'.seen
  within : ∀ x ∈ new, ∃ r ∈ roots, Walk (Edge next) (· ∈ new) r x
  /-- What is left after `b` was met without `b`. -/
  past : ∀ l b r, new = l ++ b :: r → ∀ x ∈ l, ∃ n ∈ roots,
    Walk (Edge next) (fun y => y ∉ s.seen ∧ y ≠ b) n x
  /-- What is left between a node and one that is only met through it was met from the former. -/
  between : ∀ l a m b r, new = l ++ a :: (m ++ b :: r) →
    (∀ n ∈ roots, ¬ Walk (Edge next) (· ≠ a) n b) →
      ∀ x ∈ m, ∃ n, Edge next a n ∧ Walk (Edge next) (fun y => y ≠ a ∧ y ≠ b) n x

namespace Lays

theorem refl (s : Visit ν) : Lays next [] s s [] where
  toGrows := .refl s
  met := by simp
  within := by simp
  past := by simp
  between := by simp

theorem mono {roots' : List ν} (h : Lays next roots s s' new) (hr : roots ⊆ roots')
    (hmet : ∀ r ∈ roots', r ∈ s'.seen) : Lays next roots' s s' new where
  toGrows := h.toGrows.mono hr
  met := hmet
  within x hx := by
    obtain ⟨r, hr', hw⟩ := h.within x hx
    exact ⟨r, hr hr', hw⟩
  past l b r he x hx := by
    obtain ⟨n, hn, hw⟩ := h.past l b r he x hx
    exact ⟨n, hr hn, hw⟩
  between l a m b r he hno := h.between l a m b r he fun n hn => hno n (hr hn)

theorem trans {n : ν} {ns : List ν} (h : Lays next [n] s s' new) (h' : Lays next ns s' s'' new') :
    Lays next (n :: ns) s s'' (new' ++ new) where
  toGrows := (h.toGrows.mono (by simp)).trans (h'.toGrows.mono (by simp))
  met r hr := by
    rcases List.mem_cons.1 hr with rfl | hr
    · exact (h'.seen _).2 (.inr (h.met _ (List.mem_singleton_self _)))
    · exact h'.met r hr
  within x hx := by
    rcases List.mem_append.1 hx with hx | hx
    · obtain ⟨r, hr, hw⟩ := h'.within x hx
      exact ⟨r, List.mem_cons_of_mem _ hr, hw.mono fun y hy => List.mem_append_left _ hy⟩
    · obtain ⟨r, hr, hw⟩ := h.within x hx
      refine ⟨r, ?_, hw.mono fun y hy => List.mem_append_right _ hy⟩
      exact List.mem_singleton.1 hr ▸ List.mem_cons_self ..
  past l b r he x hx := by
    rcases append_eq_split he with ⟨m, rfl, hm⟩ | ⟨m, hm, rfl⟩
    · have hb : b ∈ new := by simp [hm]
      rcases List.mem_append.1 hx with hx | hx
      · -- all of the second search avoids what the first has left
        obtain ⟨r, hr, hw⟩ := h'.within x hx
        refine ⟨r, List.mem_cons_of_mem _ hr, hw.mono fun y hy => ⟨fun hs => ?_, ?_⟩⟩
        · exact h'.fresh y hy ((h.seen y).2 (.inr hs))
        · rintro rfl
          exact h'.fresh y hy ((h.seen y).2 (.inl hb))
      · obtain ⟨n, hn, hw⟩ := h.past m b r hm x hx
        exact ⟨n, List.mem_singleton.1 hn ▸ List.mem_cons_self .., hw⟩
    · obtain ⟨n, hn, hw⟩ := h'.past l b m hm x hx
      refine ⟨n, List.mem_cons_of_mem _ hn, hw.mono fun y hy => ⟨fun hs => ?_, hy.2⟩⟩
      exact hy.1 ((h.seen y).2 (.inr hs))
  between l a m b r he hno x hx := by
    rcases append_eq_split he with ⟨l', rfl, hl⟩ | ⟨l', hl, hr⟩
    · exact h.between l' a m b r hl (fun k hk => hno k (List.mem_singleton.1 hk ▸ by simp)) x hx
    · rcases append_eq_split hr.symm with ⟨m', rfl, hm⟩ | ⟨m', hm, rfl⟩
      · -- the second search was the first to meet `a`, so `b` was met without it
        have ha : a ∈ new' := by simp [hl]
        have hb : b ∈ new := by simp [hm]
        obtain ⟨k, hk, hw⟩ := h.within b hb
        refine absurd (hw.mono fun y hy => ?_) (hno k (List.mem_singleton.1 hk ▸ by simp))
        rintro rfl
        exact h'.fresh y ha ((h.seen y).2 (.inl hy))
      · exact h'.between l a m b m' (hm ▸ hl) (fun k hk => hno k (List.mem_cons_of_mem _ hk)) x hx

theorem enter {n : ν} (hn : n ∉ s.seen)
    (h : Lays next (next n) { s with seen := n :: s.seen } s' new) :
    Lays next [n] s { s' with order := n :: s'.order } (n :: new) where
  toGrows := h.toGrows.enter hn h.met
  met r hr := by
    obtain rfl := List.mem_singleton.1 hr
    exact (h.seen r).2 (.inr (List.mem_cons_self ..))
  within x hx := by
    refine ⟨n, List.mem_singleton_self _, ?_⟩
    rcases List.mem_cons.1 hx with rfl | hx
    · exact .refl (List.mem_cons_self ..)
    · obtain ⟨r, hr, hw⟩ := h.within x hx
      exact .head (List.mem_cons_self ..) hr (hw.mono fun y hy => List.mem_cons_of_mem _ hy)
  past l b r he x hx := by
    refine ⟨n, List.mem_singleton_self _, ?_⟩
    cases l with
    | nil => cases hx
    | cons y l =>
      obtain ⟨rfl, rfl⟩ := List.cons.inj he
      have hnb : n ≠ b := by
        rintro rfl
        exact h.fresh n (by simp) (List.mem_cons_self ..)
      rcases List.mem_cons.1 hx with rfl | hx
      · exact .refl ⟨hn, hnb⟩
      · obtain ⟨k, hk, hw⟩ := h.past l b r rfl x hx
        refine .head ⟨hn, hnb⟩ hk (hw.mono fun y hy => ⟨fun hs => hy.1 ?_, hy.2⟩)
        exact List.mem_cons_of_mem _ hs
  between l a m b r he hno x hx := by
    cases l with
    | nil =>
      obtain ⟨rfl, rfl⟩ := List.cons.inj he
      obtain ⟨k, hk, hw⟩ := h.past m b r rfl x hx
      refine ⟨k, hk, hw.mono fun y hy => ⟨?_, hy.2⟩⟩
      rintro rfl
      exact hy.1 (List.mem_cons_self ..)
    | cons y l =>
      obtain ⟨rfl, rfl⟩ := List.cons.inj he
      refine h.between l a m b r rfl (fun k hk hw => ?_) x hx
      refine hno n (List.mem_singleton_self _) (.head ?_ hk hw)
      rintro rfl
      exact h.fresh n (by simp) (List.mem_cons_self ..)

end Lays

/-- A search without a bound lays out all that it meets. -/
theorem Explores.lays (h : Explores next s roots s') : ∃ new, Lays next roots s s' new := by
  induction h with
  | done => exact ⟨[], .refl _⟩
  | @skip s s' n ns hn _ ih =>
    obtain ⟨new, hnew⟩ := ih
    refine ⟨new, hnew.mono (by simp) fun r hr => ?_⟩
    rcases List.mem_cons.1 hr with rfl | hr
    · exact (hnew.seen r).2 (.inr hn)
    · exact hnew.met r hr
  | enter hn _ _ ih ih' =>
    obtain ⟨new, hnew⟩ := ih
    obtain ⟨new', hnew'⟩ := ih'
    exact ⟨_, (hnew.enter hn).trans hnew'⟩

end Flow

namespace Cfg

open LoopFusion.Flow

variable {f : Func} {e a b x : BlockId} (hf : f.InArena) (he : f.entry? = some e)

include hf he

theorem lays_order : ∃ s, Lays (Cfg.ofFunc f).succs [e] ⟨[], []⟩ s (Cfg.ofFunc f).order := by
  have hx := explores_reversePostorder (Dominators.regular hf he)
  obtain ⟨new, hnew⟩ := hx.lays
  have ho : new = (Cfg.ofFunc f).order := by
    rw [order_ofFunc he, ← Cfg.capacity_ofFunc, ← new.append_nil]
    exact hnew.order.symm
  exact ⟨_, ho ▸ hnew⟩

theorem mem_before_of_dom {l r : List BlockId} (h : Dom f.Edge e a b) (hne : a ≠ b)
    (hl : (Cfg.ofFunc f).order = l ++ b :: r) : a ∈ l := by
  induction hn : l.length using Nat.strong_induction_on generalizing l b r with
  | _ n ih =>
    have hb : b ≠ e := by
      rintro rfl
      exact hne h.eq_root
    rw [order_ofFunc he] at hl
    obtain ⟨y, hy, hyb⟩ := exists_earlier_pred (succs_mem_arena hf) (entry_mem_arena hf he)
      (by rw [Func.length_arena]; omega) hl hb
    rw [← order_ofFunc he] at hl
    by_cases hay : a = y
    · exact hay ▸ hy
    · have hey : f.Leads e y := (mem_order hf he).1 (hl ▸ List.mem_append_left _ hy)
      obtain ⟨l₁, l₂, rfl⟩ := List.append_of_mem hy
      rw [List.append_assoc] at hl
      rw [List.length_append, List.length_cons] at hn
      have := ih l₁.length (by omega) (h.pred hne hey (mem_succs.1 hyb)) hay hl rfl
      exact List.mem_append_left _ this

theorem precedes_of_dom (h : Dom f.Edge e a b) (hne : a ≠ b) :
    Precedes (Cfg.ofFunc f).order a b := by
  obtain ⟨l, r, hl⟩ := List.append_of_mem ((mem_order hf he).2 h.1)
  rw [hl]
  exact precedes_append (mem_before_of_dom hf he h hne hl) (List.mem_cons_self ..)

/-- An edge that does not go forward in the order runs inside a cycle. -/
theorem leads_of_retreat {i j : Nat} (hab : f.Edge a b) (ha : (Cfg.ofFunc f).order[i]? = some a)
    (hb : (Cfg.ofFunc f).order[j]? = some b) (hji : j ≤ i) : f.Leads b a := by
  obtain ⟨s, hs⟩ := lays_order hf he
  have hi := (List.getElem?_eq_some_iff.1 ha).1
  have hsplit : (Cfg.ofFunc f).order =
      (Cfg.ofFunc f).order.take i ++ a :: (Cfg.ofFunc f).order.drop (i + 1) := by
    obtain ⟨_, rfl⟩ := List.getElem?_eq_some_iff.1 ha
    rw [← List.drop_eq_getElem_cons hi, List.take_append_drop]
  rcases hs.retreat _ a _ hsplit b (mem_succs.2 hab) with hlater | hseen | hreach
  · obtain ⟨k, hk⟩ := List.mem_iff_getElem?.1 hlater
    rw [List.getElem?_drop] at hk
    have := place_eq (nodup_order hf he) hk hb
    omega
  · cases hseen
  · rwa [Reach, edge_succs] at hreach

theorem exists_way_between (h : Dom f.Edge e a b) (hax : Precedes (Cfg.ofFunc f).order a x)
    (hxb : Precedes (Cfg.ofFunc f).order x b) :
    ∃ n, f.Edge a n ∧ Walk f.Edge (fun y => y ≠ a ∧ y ≠ b) n x := by
  obtain ⟨s, hs⟩ := lays_order hf he
  obtain ⟨l, m, r, hl, hx⟩ := hax.exists_between hxb (nodup_order hf he)
  have := hs.between l a m b r hl (by simpa [edge_succs] using h.2) x hx
  rwa [edge_succs] at this

end Cfg

end LoopFusion
