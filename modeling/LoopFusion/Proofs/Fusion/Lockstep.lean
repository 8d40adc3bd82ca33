import LoopFusion.Proofs.Fusion.Interleaving

/-!
The fused function goes where the function it comes from goes, one visit at a time, until that one
returns.
-/

namespace LoopFusion.FusionPlan

open Relation LoopFusion.Flow Func Func.Run

variable {p : FusionPlan} {f : Func} {e : BlockId} {a b : Loop} {args : List Int} {mem : Memory}
  {r : f.Run args mem} {m n m' n' i j k : Nat} {w' : Visit} {x : Int}

/-- Control is in neither loop nor between them, and nothing is left to do. -/
structure Outside (p : FusionPlan) (r : f.Run args mem) (e : BlockId) (w' : Visit) (n : Nat) :
    Prop where
  le : n ≤ r.last
  notFirst : ¬ f.InLoop e p.first.header (r.block n)
  notSecond : ¬ f.InLoop e p.second.header (r.block n)
  ne : r.block n ≠ p.second.preheader
  lands : p.Lands f w' (r.visit n)
  sees : p.Sees (p.ReadOutside f) w'.store (r.visit n).store
  mem : w'.store.mem = (r.visit n).store.mem

/-- Control is in the first loop, and the second is about to begin the same round, or the next one
if the first is at its latch. -/
structure InFirst (p : FusionPlan) (r : f.Run args mem) (e : BlockId) (a b : Loop)
    (w' : Visit) (m n m' n' i j : Nat) : Prop where
  paired : p.Paired r e a b m n m' n'
  first : m ≤ i ∧ i ≤ n
  second : m' ≤ j ∧ j ≤ n'
  header : r.block j = p.second.header
  round : r.round b j = r.round a i + if r.block i = p.first.latch then 1 else 0
  lands : p.Lands f w' (r.visit i)
  beside : p.Beside r e n m' i j w'.store

/-- Control is in the body of the second loop, and the first is about to end the same round. -/
structure InSecond (p : FusionPlan) (r : f.Run args mem) (e : BlockId) (a b : Loop)
    (w' : Visit) (m n m' n' i j : Nat) : Prop where
  paired : p.Paired r e a b m n m' n'
  first : m ≤ i ∧ i ≤ n
  second : m' ≤ j ∧ j ≤ n'
  latch : r.block i = p.first.latch
  inner : r.block j ≠ p.second.header ∧ r.block j ≠ p.second.latch
  round : r.round b j = r.round a i
  lands : p.Lands f w' (r.visit j)
  beside : p.Beside r e n m' i j w'.store

variable (h : p.Accepted f e a b)

include h

/-- Phis read what is known at the end of the block that control comes from. -/
theorem Lands.enters_visit {K : InstId → Prop} (hl : p.Lands f w' (r.visit n)) (hn : r.On n)
    (hr : r.block n ∉ p.retired) (hK : ∀ q, f.Leads e q → f.Edge q (r.block n) →
      ∀ i ∈ f.phis (r.block n), ∀ d, f.choice? (some q) i = some (.inst d) → K d) :
    p.Enters f K w' (r.visit n) := by
  have hw := h.wellFormed
  refine hl.enters hw h.fits h.clean hn.live hr (fun q hq => source_spec hw hn.le hq)
    fun i hi d hd => ?_
  cases hq : (r.visit n).source? with
  | none => rw [hq] at hd; cases hd
  | some q =>
    obtain ⟨hleads, hedge⟩ := source_spec hw hn.le hq
    exact hK q hleads hedge i hi d (hq ▸ hd)

namespace Outside

variable (ho : p.Outside r e w' n)

include ho

theorem not_retired : r.block n ∉ p.retired := by
  rw [h.fits.mem_retired]
  rintro (hb | hb | hb)
  · exact ho.ne hb
  · exact ho.notSecond (hb ▸ h.fits.second.header_in)
  · exact ho.notSecond (hb ▸ h.fits.second.latch_in)

theorem mirrors (hn : r.block n ∈ f.layout) : p.Mirrors f args (p.ReadOutside f) w' (r.visit n) where
  enough := suffices_outside h.wellFormed h.fits h.clean hn (ho.not_retired h) fun hb =>
    ho.notFirst (hb ▸ h.fits.first.header_in)
  block := ho.lands.block
  sees := ho.sees
  enters := ho.lands.enters_visit h ⟨ho.le, hn⟩ (ho.not_retired h) fun _ hq hqb _ hi _ hd =>
    readOutside_of_choice? h.wellFormed h.fits h.clean hn (ho.not_retired h) hq hqb hi hd
  touched := fun _ x _ => congrFun ho.mem x

end Outside

namespace InFirst

variable (hs : p.InFirst r e a b w' m n m' n' i j)

include hs

theorem inLoop : f.InLoop e p.first.header (r.block i) :=
  (hs.paired.stayFirst h).within i hs.first.1 hs.first.2

omit h in
theorem on : r.On i := hs.paired.on_first hs.first.2

/-- What the first loop touches the second has not written yet. -/
theorem clear {t : InstId} (ht : f.Touches args (r.visit i) t x) (hmk : m' ≤ k) (hkj : k < j) :
    ¬ f.Writes args (r.visit k) x := by
  rintro ⟨t', hwr, ht'⟩
  have hk : r.block k ∉ p.retired := fun hk => h.not_writes_retired hk ⟨t', hwr, ht'⟩
  have hle := hs.paired.forward i k t t' x hs.first.1 hs.first.2 hmk
    (hkj.le.trans hs.second.2) hk ht ht' (.inr hwr)
  have hlt := round_lt h.wellFormed h.second hkj
    (fun l h₁ h₂ => hs.paired.second.within l (hmk.trans h₁) (h₂.trans hs.second.2))
    (hs.header.trans h.plan.second.header)
  have hround := hs.round
  rw [if_neg fun hb => h.not_touches_latch hb ht] at hround
  omega

theorem mirrors : p.Mirrors f args (p.ReadFirst f e) w' (r.visit i) where
  enough := suffices_first h.wellFormed h.fits h.clean hs.on.live (hs.inLoop h)
  block := hs.lands.block
  sees := fun d hd => by
    rw [heir_of_ne (hd.1.ne h.clean h.fits), hs.beside.first d hd]
  enters := hs.lands.enters_visit h hs.on (h.fits.not_retired_first (hs.inLoop h))
    fun _ hq hqb _ hi _ hd =>
      readFirst_of_choice? h.wellFormed h.fits h.clean hs.on.live hq hqb hi hd (hs.inLoop h)
  touched := fun _ x ht => hs.beside.undone x fun _ h₁ h₂ => hs.clear h ht h₁ h₂

end InFirst

namespace InSecond

variable (hs : p.InSecond r e a b w' m n m' n' i j)

include hs

theorem inLoop : f.InLoop e p.second.header (r.block j) :=
  (hs.paired.staySecond h).within j hs.second.1 hs.second.2

omit h in
theorem on : r.On j := hs.paired.on_second hs.second.2

theorem not_retired : r.block j ∉ p.retired := by
  rw [h.fits.mem_retired]
  rintro (hb | hb | hb)
  · exact h.fits.second.preheader_out (hb ▸ hs.inLoop h)
  · exact hs.inner.1 hb
  · exact hs.inner.2 hb

/-- What the second loop touches the first does not write any more. -/
theorem clear {t : InstId} (ht : f.Touches args (r.visit j) t x) (hik : i ≤ k) (hkn : k ≤ n) :
    ¬ f.Writes args (r.visit k) x := by
  rintro ⟨t', hwr, ht'⟩
  have hne : i ≠ k := by
    rintro rfl
    exact h.not_touches_latch hs.latch ht'
  have hle := hs.paired.forward k j t' t x (hs.first.1.trans hik) hkn hs.second.1 hs.second.2
    (hs.not_retired h) ht' ht (.inl hwr)
  have hlt := hs.paired.round_lt_of_latch h hs.first.1 (by omega) hkn hs.latch
  have hround := hs.round
  omega

theorem counter : w'.store.env p.first.iv = (r.visit j).store.env p.second.iv := by
  have hw := h.wellFormed
  have hp := h.fits
  have hA := hs.paired.stayFirst h
  have hB := hs.paired.staySecond h
  -- neither loop is at its header, so both are in the round that they were in before
  have hmi : m ≠ i := by
    rintro rfl
    have := hs.paired.first.header hw h.first
    rw [hs.latch, ← h.plan.first.header] at this
    exact hp.first.latch_ne this
  have hmj : m' ≠ j := by
    rintro rfl
    exact hs.inner.1 ((hs.paired.second.header hw h.second).trans h.plan.second.header.symm)
  obtain ⟨i, rfl⟩ : ∃ k, i = k + 1 := ⟨i - 1, by have := hs.first; omega⟩
  obtain ⟨j, rfl⟩ : ∃ k, j = k + 1 := ⟨j - 1, by have := hs.second; omega⟩
  have hi : r.block (i + 1) ≠ a.header := by
    rw [hs.latch, ← h.plan.first.header]
    exact hp.first.latch_ne
  have hj : r.block (j + 1) ≠ b.header := h.plan.second.header ▸ hs.inner.1
  have hround := hs.round
  rw [round_succ_of_ne hi, round_succ_of_ne hj] at hround
  have hmn := hs.first
  have hmn' := hs.second
  rw [hs.beside.first _ (readFirst_counter hw hp h.clean), store_succ (by have := hA.lt; omega),
    store_succ (by have := hB.lt; omega)]
  exact hs.paired.counters i j (by omega) (by omega) (by omega) (by omega) hround.symm

theorem mirrors (hsealed : p.Sealed f e) :
    p.Mirrors f args (p.ReadSecond f e) w' (r.visit j) where
  enough := suffices_second h.wellFormed h.fits h.clean hsealed hs.on.live (hs.not_retired h)
    (hs.inLoop h)
  block := hs.lands.block
  sees := by
    rintro d ⟨hd | rfl, hnot⟩
    · rw [heir_of_ne (hd.ne h.clean h.fits), hs.beside.second d hd hnot]
    · rw [heir, replace, if_pos rfl, hs.counter h]
  enters := hs.lands.enters_visit h hs.on (hs.not_retired h) fun _ hq hqb _ hi _ hd =>
    readSecond_of_choice? h.wellFormed h.fits h.clean hs.on.live (hs.not_retired h) hq hqb hi hd
      hsealed (hs.inLoop h)
  touched := fun _ x ht => hs.beside.done x fun _ h₁ h₂ => hs.clear h ht h₁ h₂

end InSecond

/-! Where control goes. -/

omit h in
theorem lands_next {s : Store} (hn : n < r.last)
    (ht : p.retarget (r.block n) (r.block (n + 1)) = r.block (n + 1))
    (hl : p.relabel (r.block (n + 1)) (r.block n) = r.block n) :
    p.Lands f ⟨some (r.block n), p.retarget (r.block n) (r.block (n + 1)), s⟩ (r.visit (n + 1)) where
  block := ht
  source := by
    refine .inl ?_
    rw [(step_spec hn).2.2.1]
    exact congrArg some hl.symm

/-- The fused function is in step with the other one, which has about `k` visits to go. -/
inductive Tracks (p : FusionPlan) (r : f.Run args mem) (e : BlockId) (a b : Loop) (w' : Visit) :
    Nat → Prop
  | outside {n : Nat} : p.Outside r e w' n → Tracks p r e a b w' (r.last - n)
  | first {m n m' n' i j : Nat} : p.InFirst r e a b w' m n m' n' i j →
    Tracks p r e a b w' ((n - i) + (n' - j) + (r.last - n'))
  | second {m n m' n' i j : Nat} : p.InSecond r e a b w' m n m' n' i j →
    Tracks p r e a b w' ((n - i) + (n' - j) + (r.last - n'))

/-- Whenever the first loop is entered, it is gone through and then the second. -/
def Regular (p : FusionPlan) (r : f.Run args mem) (e : BlockId) (a b : Loop) : Prop :=
  ∀ m < r.last, r.block (m + 1) = p.first.header → ¬ f.InLoop e p.first.header (r.block m) →
    ∃ n m' n', p.Paired r e a b (m + 1) n m' n'

theorem Paired.inFirst (hpair : p.Paired r e a b m n m' n') (hl : p.Lands f w' (r.visit m))
    (hsees : p.Sees (p.ReadOutside f) w'.store (r.visit m).store)
    (hmem : w'.store.mem = (r.visit m).store.mem) : p.InFirst r e a b w' m n m' n' m m' := by
  have hw := h.wellFormed
  have hA := hpair.stayFirst h
  have hB := hpair.staySecond h
  have hle := hpair.le
  have hhead : r.block m = p.first.header :=
    (hpair.first.header hw h.first).trans h.plan.first.header.symm
  refine ⟨hpair, ⟨le_rfl, hA.le⟩, ⟨le_rfl, hB.le⟩,
    (hpair.second.header hw h.second).trans h.plan.second.header.symm, ?_, hl, ?_⟩
  · rw [hpair.second.round_eq hw h.second le_rfl hB.le, hpair.first.round_eq hw h.first le_rfl hA.le,
      laps_self, laps_self, if_neg (hhead ▸ h.fits.first.latch_ne.symm)]
  · refine ⟨fun d hd => ?_, fun d hd hnot => ?_, fun x _ => congrFun hmem x, fun x hx => ?_⟩
    · rw [← hsees d (.inl hd.1), heir_of_ne (hd.1.ne h.clean h.fits)]
    · rw [store_env_eq hle (hpair.on_second hB.le).le fun k h₁ h₂ hk => ?_, ← hsees d (.inl hd),
        heir_of_ne (hd.ne h.clean h.fits)]
      by_cases hkn : k ≤ n
      · exact hnot ⟨_, hA.within k h₁ hkn, hk⟩
      · exact hd _ (hpair.between h (by omega) h₂) hk
    · rw [hmem, store_mem_eq hle (hpair.on_second hB.le).le fun k h₁ h₂ => ?_]
      by_cases hkn : k ≤ n
      · exact hx k h₁ hkn
      · exact h.not_writes_retired (hpair.between h (by omega) h₂)

theorem Paired.sees_outside {s : Store} (hpair : p.Paired r e a b m n m' n')
    (hs : p.Beside r e n m' (n + 1) (n' + 1) s) :
    p.Sees (p.ReadOutside f) s (r.visit (n' + 1)).store := by
  have hw := h.wellFormed
  have hp := h.fits
  have hc := h.clean
  have hB := hpair.staySecond h
  have hover := hpair.across.lt
  have hle := hB.le
  rintro d (hd | rfl)
  · rw [heir_of_ne (hd.ne hc hp)]
    by_cases hcomp : f.Computes e p.second.header d
    · exact hs.second d hd (not_computes_both hw hp hcomp)
    · rw [hs.first d ⟨hd, hcomp⟩]
      refine (store_env_eq (by omega) hB.lt fun k h₁ h₂ hk => ?_).symm
      by_cases hkm : k < m'
      · exact hd _ (hpair.between h (by omega) hkm) hk
      · exact hcomp ⟨_, hB.within k (by omega) (by omega), hk⟩
  · rw [heir, replace, if_pos rfl, hs.first _ (readFirst_counter hw hp hc),
      store_succ hpair.first.lt, store_succ hB.lt]
    exact hpair.counters n n' hpair.first.le le_rfl hle le_rfl hpair.rounds

theorem Outside.advance (hreg : p.Regular r e a b) (ho : p.Outside r e w' n) (hn : n < r.last) :
    ∃ w k, (p.fused f).next? args w' = some w ∧ p.Tracks r e a b w k ∧ k < r.last - n := by
  have hw := h.wellFormed
  have hp := h.fits
  have hc := h.clean
  have hm := ho.mirrors h (step_spec hn).1
  have hedge := edge hn
  have hleads := leads (r := r) hw hn.le
  have hlands := lands_next (p := p) (s := (p.fused f).leave args w') hn
    (retarget_eq_self
      (fun hb => absurd hb (not_or.2 ⟨fun hb => ho.notFirst (hb ▸ hp.first.header_in),
        hp.not_redirected_of_reach hleads⟩))
      (fun hb => absurd (hb ▸ hp.first.tail_in) ho.notFirst)
      (fun hb => absurd (hb ▸ hp.second.tail_in) ho.notSecond))
    (relabel_eq_self (fun _ hb => ho.notSecond (hb ▸ hp.second.header_in))
      (fun _ hb => ho.notFirst (hb ▸ hp.first.tail_in)))
  have hsees : p.Sees (p.ReadOutside f) ((p.fused f).leave args w') (r.visit (n + 1)).store := by
    rw [store_succ hn]
    exact hm.sees_leave hw hp hc
  have hmem : ((p.fused f).leave args w').mem = (r.visit (n + 1)).store.mem := by
    rw [store_succ hn]
    exact funext fun x => hm.mem_leave hw hp hc (congrFun ho.mem x)
  have hnext := hm.next? hw hp hc (r.step n hn)
  by_cases hA : f.InLoop e p.first.header (r.block (n + 1))
  · have hhead : r.block (n + 1) = p.first.header := by
      by_contra hne
      exact ho.notFirst (inLoop_pred hw hn hA hne)
    obtain ⟨n₁, m', n', hpair⟩ := hreg n hn hhead ho.notFirst
    have hle := hpair.first.le
    have hlt := hpair.across.lt
    have hle' := hpair.second.le
    have hlast := hpair.second.lt
    exact ⟨_, _, hnext, .first (hpair.inFirst h hlands hsees hmem), by omega⟩
  · refine ⟨_, _, hnext, .outside ⟨hn, hA, fun hB => ?_, fun hpre => ?_, hlands, hsees, hmem⟩,
      by omega⟩
    · by_cases hhead : r.block (n + 1) = p.second.header
      · exact ho.ne ((hp.second.enter _).1 ⟨hhead ▸ hedge, ho.notSecond⟩)
      · exact ho.notSecond (inLoop_pred hw hn hB hhead)
    · exact ho.notFirst (hp.alone _ hleads (hpre ▸ hedge) ▸ hp.first.header_in)

namespace InFirst

variable (hs : p.InFirst r e a b w' m n m' n' i j)

include hs

omit h in
theorem lt : i < r.last := lt_of_le_of_lt hs.first.2 hs.paired.first.lt

theorem beside_next : p.Beside r e n m' (i + 1) j ((p.fused f).leave args w') :=
  hs.beside.step_first h (hs.mirrors h) hs.lt (hs.inLoop h)
    (fun _ hx => hs.paired.mem_over h hs.first.2 hx) hs.second.1
    (hs.paired.on_second hs.second.2).le
    fun _ ⟨_, _, ht⟩ _ h₁ h₂ => hs.clear h ht h₁ h₂

theorem next? : (p.fused f).next? args w' = some ⟨some (r.block i),
    p.retarget (r.block i) (r.block (i + 1)), (p.fused f).leave args w'⟩ :=
  (hs.mirrors h).next? h.wellFormed h.fits h.clean (r.step i hs.lt)

/-- The first loop goes on in the same round, or from its latch to the next one. -/
theorem go_on (hi : i < n) (hl : r.block (i + 1) ≠ p.first.latch) :
    p.InFirst r e a b ⟨some (r.block i), p.retarget (r.block i) (r.block (i + 1)),
      (p.fused f).leave args w'⟩ m n m' n' (i + 1) j := by
  have hw := h.wellFormed
  have hp := h.fits
  have hin := hs.inLoop h
  have hin' := (hs.paired.stayFirst h).within (i + 1) (by have := hs.first; omega) hi
  refine ⟨hs.paired, ⟨by have := hs.first; omega, hi⟩, hs.second, hs.header, ?_, ?_,
    hs.beside_next h⟩
  · have hround := hs.round
    rw [if_neg hl]
    by_cases hb : r.block (i + 1) = p.first.header
    · have hlatch : r.block i = p.first.latch := by
        refine (hp.first.preds_header.1 (hb ▸ edge hs.lt)).resolve_left fun hpre => ?_
        exact hp.first.preheader_out (hpre ▸ hin)
      rw [if_pos hlatch] at hround
      rw [round_of_back hw h.first (hb.trans h.plan.first.header) (h.plan.first.header ▸ hin)]
      omega
    · rw [if_neg] at hround
      · rw [round_succ_of_ne (h.plan.first.header ▸ hb), hround]
      · intro hlatch
        exact hb ((hp.first.round _).1 (hlatch ▸ edge hs.lt))
  · refine lands_next hs.lt (retarget_eq_self (fun _ hb => ?_) (fun _ => hl) fun hb => ?_)
      (relabel_eq_self (fun hb => ?_) fun hb => absurd hb hl)
    · exact hp.preheader_out (hb ▸ hin')
    · exact absurd hp.second.tail_in (hp.apart _ (hb ▸ hin))
    · exact absurd hp.second.bodyHead_in (hp.apart _ (hb ▸ hin'))

/-- Before the latch of the first loop comes the body of the second. -/
theorem cross (hi : i < n) (hl : r.block (i + 1) = p.first.latch) :
    p.InSecond r e a b ⟨some (r.block i), p.retarget (r.block i) (r.block (i + 1)),
      (p.fused f).leave args w'⟩ m n m' n' (i + 1) (j + 1) := by
  have hw := h.wellFormed
  have hp := h.fits
  have hB := hs.paired.staySecond h
  have hmi := hs.first.1
  have hmj := hs.second.1
  have htail : r.block i = p.first.bodyTail := (hp.first.tail _).1 (hl ▸ edge hs.lt)
  have hround := hs.round
  rw [if_neg (htail ▸ hp.first.bodyTail_ne_latch), add_zero] at hround
  -- the first loop has a round to come, so the second has one, too
  have hlt := round_lt hw h.first hi (fun k h₁ h₂ => hs.paired.first.within k (by omega) h₂)
    ((hs.paired.leaveFirst h).1.trans h.plan.first.header)
  have hj : j < n' := by
    refine lt_of_le_of_ne hs.second.2 ?_
    rintro rfl
    have := hs.paired.rounds
    omega
  have hjl : j < r.last := hj.trans hB.lt
  have hhead : r.block (j + 1) = p.second.bodyHead := by
    have hedge := edge hjl
    rw [hs.header, hp.second.branch] at hedge
    refine hedge.resolve_right fun hx => ?_
    exact hp.second.exit_out (hx ▸ hB.within (j + 1) (by omega) hj)
  have hne := hp.second.bodyHead_ne
  refine ⟨hs.paired, ⟨by omega, hi⟩, ⟨by omega, hj⟩, hl, hhead ▸ ⟨hne.2, hne.1⟩, ?_, ⟨?_, .inl ?_⟩, ?_⟩
  · rw [round_succ_of_ne, round_succ_of_ne, hround]
    · rw [hl, ← h.plan.first.header]
      exact hp.first.latch_ne
    · rw [hhead, ← h.plan.second.header]
      exact hne.2
  · change p.retarget _ _ = r.block (j + 1)
    rw [htail, hl, retarget_firstTail hp, hhead]
  · change some (r.block i) = ((r.visit (j + 1)).source?).map (p.relabel (r.block (j + 1)))
    rw [(step_spec hjl).2.2.1, hhead, hs.header, Option.map_some, relabel_bodyHead, htail]
  · exact (hs.beside_next h).skip h hjl (hp.mem_retired.2 (.inr (.inl hs.header)))

/-- When the first loop ends, so has the second. -/
theorem last (hi : i = n) : j = n' := by
  subst hi
  have hw := h.wellFormed
  have hmj := hs.second.1
  have hround := hs.round
  rw [(hs.paired.leaveFirst h).1, if_neg h.fits.first.latch_ne.symm] at hround
  by_contra hne
  have hlt := round_lt hw h.second (lt_of_le_of_ne hs.second.2 hne)
    (fun k h₁ h₂ => hs.paired.second.within k (by omega) h₂)
    ((hs.paired.leaveSecond h).1.trans h.plan.second.header)
  have := hs.paired.rounds
  omega

/-- From the header of the first loop control goes to where the second is left to. -/
theorem leave (hi : i = n) :
    p.Outside r e ⟨some (r.block i), p.retarget (r.block i) (r.block (i + 1)),
      (p.fused f).leave args w'⟩ (n' + 1) := by
  have hw := h.wellFormed
  have hp := h.fits
  have hc := h.clean
  obtain rfl := hs.last h hi
  subst hi
  have hB := hs.paired.staySecond h
  have hover := hs.paired.across.lt
  have hle := hB.le
  obtain ⟨hhead, hpre⟩ := hs.paired.leaveFirst h
  obtain ⟨hhead', hexit⟩ := hs.paired.leaveSecond h
  have hbeside := (hs.beside_next h).skip h hB.lt (hp.mem_retired.2 (.inr (.inl hhead')))
  refine ⟨hB.lt, hexit ▸ hp.exit_out, hexit ▸ hp.second.exit_out, hexit ▸ hp.exit_ne_preheader,
    ⟨?_, .inr ?_⟩, ?_, ?_⟩
  · change p.retarget _ _ = r.block (j + 1)
    rw [hhead, hpre, hexit, retarget_entry (.inl rfl)]
  · change f.phis (r.block (j + 1)) = []
    rw [hexit, hc.exit]
  · exact hs.paired.sees_outside h hbeside
  · exact funext fun x => hbeside.done x fun k h₁ h₂ => by omega

theorem advance : ∃ w k, (p.fused f).next? args w' = some w ∧ p.Tracks r e a b w k ∧
    k < (n - i) + (n' - j) + (r.last - n') := by
  have hi := hs.first.2
  have hj := hs.second.2
  have hlast := hs.paired.second.lt
  by_cases hn : i = n
  · exact ⟨_, _, hs.next? h, .outside (hs.leave h hn), by omega⟩
  · by_cases hl : r.block (i + 1) = p.first.latch
    · exact ⟨_, _, hs.next? h, .second (hs.cross h (by omega) hl), by omega⟩
    · exact ⟨_, _, hs.next? h, .first (hs.go_on h (by omega) hl), by omega⟩

end InFirst

namespace InSecond

variable (hsealed : p.Sealed f e) (hs : p.InSecond r e a b w' m n m' n' i j)

include hs

theorem lt : j < n' := by
  refine lt_of_le_of_ne hs.second.2 ?_
  rintro rfl
  exact hs.inner.1 (hs.paired.leaveSecond h).1

include hsealed

theorem beside_next : p.Beside r e n m' i (j + 1) ((p.fused f).leave args w') :=
  hs.beside.step_second h (hs.mirrors h hsealed) ((hs.lt h).trans hs.paired.second.lt) hs.second.1
    (hs.inLoop h)

theorem next? : (p.fused f).next? args w' = some ⟨some (r.block j),
    p.retarget (r.block j) (r.block (j + 1)), (p.fused f).leave args w'⟩ :=
  (hs.mirrors h hsealed).next? h.wellFormed h.fits h.clean
    (r.step j ((hs.lt h).trans hs.paired.second.lt))

/-- The second loop goes on in the same round. -/
theorem go_on (hl : r.block (j + 1) ≠ p.second.latch) :
    p.InSecond r e a b ⟨some (r.block j), p.retarget (r.block j) (r.block (j + 1)),
      (p.fused f).leave args w'⟩ m n m' n' i (j + 1) := by
  have hp := h.fits
  have hj := hs.lt h
  have hjl : j < r.last := hj.trans hs.paired.second.lt
  have hin := hs.inLoop h
  have hhead : r.block (j + 1) ≠ p.second.header := fun hb =>
    (hp.second.preds_header.1 (hb ▸ edge hjl)).elim (fun hpre => hp.second.preheader_out (hpre ▸ hin))
      hs.inner.2
  refine ⟨hs.paired, hs.first, ⟨by have := hs.second; omega, hj⟩, hs.latch, ⟨hhead, hl⟩, ?_, ?_,
    hs.beside_next h hsealed⟩
  · rw [round_succ_of_ne (h.plan.second.header ▸ hhead), hs.round]
  · refine lands_next hjl (retarget_eq_self (fun hb => ?_) (fun hb => ?_) fun _ => hl)
      (relabel_eq_self (fun _ => hs.inner.1) fun _ hb => ?_)
    · refine absurd hb (not_or.2 ⟨fun hb => ?_, hp.not_redirected_second hin⟩)
      exact hp.apart _ (hb ▸ hp.first.header_in) hin
    · exact absurd hin (hp.apart _ (hb ▸ hp.first.tail_in))
    · exact absurd hin (hp.apart _ (hb ▸ hp.first.tail_in))

/-- Instead of the second latch comes the first, and the next round of both. -/
theorem cross (hl : r.block (j + 1) = p.second.latch) :
    p.InFirst r e a b ⟨some (r.block j), p.retarget (r.block j) (r.block (j + 1)),
      (p.fused f).leave args w'⟩ m n m' n' i (j + 2) := by
  have hw := h.wellFormed
  have hp := h.fits
  have hB := hs.paired.staySecond h
  have hj := hs.lt h
  have hjl : j < r.last := hj.trans hB.lt
  have htail : r.block j = p.second.bodyTail := (hp.second.tail _).1 (hl ▸ edge hjl)
  have hj' : j + 1 < n' := by
    refine lt_of_le_of_ne hj ?_
    rintro rfl
    exact hp.second.latch_ne (hl.symm.trans (hs.paired.leaveSecond h).1)
  have hjl' : j + 1 < r.last := hj'.trans hB.lt
  have hhead : r.block (j + 2) = p.second.header := (hp.second.round _).1 (hl ▸ edge hjl')
  have hmj := hs.second.1
  refine ⟨hs.paired, hs.first, ⟨by omega, hj'⟩, hhead, ?_, ⟨?_, .inr ?_⟩, ?_⟩
  · rw [if_pos hs.latch, round_of_back hw h.second (hhead.trans h.plan.second.header)
      (h.plan.second.header ▸ hB.within (j + 1) (by omega) hj'.le), round_succ_of_ne, hs.round]
    rw [hl, ← h.plan.second.header]
    exact hp.second.latch_ne
  · change p.retarget _ _ = r.block i
    rw [htail, hl, retarget_secondTail hp, hs.latch]
  · change f.phis (r.block i) = []
    rw [hs.latch, List.eq_nil_iff_forall_not_mem]
    exact fun t ht => h.clean.latch t ((List.takeWhile_sublist _).mem ht) (List.mem_takeWhile_imp ht)
  · exact (hs.beside_next h hsealed).skip h hjl' (hp.mem_retired.2 (.inr (.inr hl)))

theorem advance : ∃ w k, (p.fused f).next? args w' = some w ∧ p.Tracks r e a b w k ∧
    k < (n - i) + (n' - j) + (r.last - n') := by
  have hj := hs.lt h
  by_cases hl : r.block (j + 1) = p.second.latch
  · exact ⟨_, _, hs.next? h hsealed, .first (hs.cross h hsealed hl), by omega⟩
  · exact ⟨_, _, hs.next? h hsealed, .second (hs.go_on h hsealed hl), by omega⟩

end InSecond

section

variable (hsealed : p.Sealed f e) (hreg : p.Regular r e a b) {y : Option Int} {mem' : Memory}
  (hres : f.result? args (r.visit r.last) = some (y, mem'))

include hsealed hreg hres

theorem Tracks.yields (ht : p.Tracks r e a b w' k) (hw' : (p.fused f).Reaches args mem w') :
    (p.fused f).Yields args mem y mem' := by
  induction k using Nat.strong_induction_on generalizing w' with
  | h k ih =>
    have hgo : (∃ w k', (p.fused f).next? args w' = some w ∧ p.Tracks r e a b w k' ∧ k' < k) →
        (p.fused f).Yields args mem y mem' := fun ⟨w, k', hnext, hw, hlt⟩ =>
      ih k' hlt hw (hw'.next hnext)
    cases ht with
    | @outside n ho =>
      rcases Nat.lt_or_eq_of_le ho.le with hn | rfl
      · exact hgo (ho.advance h hreg hn)
      · obtain ⟨hret, hleave⟩ := result?_spec hres
        have hm := ho.mirrors h hret.1
        have hmem : ((p.fused f).leave args w').mem = mem' := by
          rw [← hleave]
          exact funext fun x => hm.mem_leave h.wellFormed h.fits h.clean (congrFun ho.mem x)
        exact ⟨w', hw', hmem ▸ hm.result? h.wellFormed h.fits h.clean hres⟩
    | first hs => exact hgo (hs.advance h)
    | second hs => exact hgo (hs.advance h hsealed)

theorem yields_of_regular : (p.fused f).Yields args mem y mem' := by
  have hw := h.wellFormed
  have hp := h.fits
  have hstart : (r.visit 0) = ⟨none, e, fun _ => 0, mem⟩ := by
    have := r.start
    rw [Func.begin?, hw.entry] at this
    exact (Option.some.inj this).symm
  have hbegin : (p.fused f).begin? mem = some ⟨none, e, fun _ => 0, mem⟩ := by
    rw [Func.begin?, entry_fused hw hp]
    rfl
  have hout : ∀ {h : BlockId}, (∃ q, f.Edge q h) → ¬ f.InLoop e h (r.block 0) := by
    rintro h ⟨q, hq⟩ hin
    rw [block_zero hw] at hin
    exact hw.unentered q (hin.dom.eq_root ▸ hq)
  refine Tracks.yields h hsealed hreg hres (.outside (n := 0) ⟨Nat.zero_le _, ?_, ?_, ?_, ?_, ?_, ?_⟩)
    (.begin hbegin)
  · exact hout ⟨_, hp.first.latch_edge⟩
  · exact hout ⟨_, hp.second.latch_edge⟩
  · rw [block_zero hw]
    rintro rfl
    exact hw.unentered _ hp.exit_edge
  · rw [hstart]
    exact ⟨rfl, .inl rfl⟩
  · rw [hstart]
    exact fun _ _ => rfl
  · rw [hstart]

end

end LoopFusion.FusionPlan
