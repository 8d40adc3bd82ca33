import LoopFusion.Proofs.Fusion.HandOff
import LoopFusion.Proofs.Fusion.Known

/-!
The fused function beside the function it comes from. While the fused loop runs, it is at one visit
of the first loop and at one of the second at once, and its store holds what the first loop has done
before the one and what the second has done before the other.
-/

namespace LoopFusion

open Relation LoopFusion.Flow

namespace Func.Run

variable {f : Func} {args : List Int} {mem : Memory} {r : f.Run args mem} {m n : Nat} {d : InstId}
  {x : Int}

theorem store_succ (h : n < r.last) : (r.visit (n + 1)).store = r.final n := (step_spec h).2.2.2

theorem store_env_eq (hmn : m ≤ n) (hn : n ≤ r.last)
    (h : ∀ k, m ≤ k → k < n → d ∉ f.body (r.block k)) :
    (r.visit n).store.env d = (r.visit m).store.env d := by
  induction n, hmn using Nat.le_induction with
  | base => rfl
  | succ n hmn ih =>
    rw [store_succ hn, final, leave_env_of_not_mem (h n hmn n.lt_succ_self),
      ih (by omega) fun k h₁ h₂ => h k h₁ (by omega)]

theorem store_mem_eq (hmn : m ≤ n) (hn : n ≤ r.last)
    (h : ∀ k, m ≤ k → k < n → ¬ f.Writes args (r.visit k) x) :
    (r.visit n).store.mem x = (r.visit m).store.mem x := by
  induction n, hmn using Nat.le_induction with
  | base => rfl
  | succ n hmn ih =>
    rw [store_succ hn, final,
      leave_mem_of_not_writes (step_spec hn).1 (h n hmn n.lt_succ_self),
      ih (by omega) fun k h₁ h₂ => h k h₁ (by omega)]

theorem source_spec {e q : BlockId} (hw : f.WellFormed e) (hn : n ≤ r.last)
    (h : (r.visit n).source? = some q) : f.Leads e q ∧ f.Edge q (r.block n) := by
  cases n with
  | zero =>
    obtain ⟨_, -, hv⟩ := Option.map_eq_some_iff.1 r.start
    rw [← hv] at h
    cases h
  | succ n =>
    obtain rfl := Option.some.inj ((step_spec hn).2.2.1.symm.trans h)
    exact ⟨leads hw (by omega), edge hn⟩

end Func.Run

namespace FusionPlan

open Func Func.Run

variable {p : FusionPlan} {f : Func} {e : BlockId} {a b : Loop} {args : List Int} {mem : Memory}
  {r : f.Run args mem} {m n m' n' i j k : Nat} {s : Store} {w' : Visit} {x : Int} {d : InstId}

/-- The store has what the first loop, left after the `n`-th visit, has done before the `i`-th, and
what the second, entered on the `m'`-th visit, has done before the `j`-th. -/
structure Beside (p : FusionPlan) (r : f.Run args mem) (e : BlockId) (n m' i j : Nat) (s : Store) :
    Prop where
  first : ∀ d, p.ReadFirst f e d → s.env d = (r.visit i).store.env d
  second : ∀ d, p.Stays f d → ¬ f.Computes e p.first.header d →
    s.env d = (r.visit j).store.env d
  undone : ∀ x, (∀ k, m' ≤ k → k < j → ¬ f.Writes args (r.visit k) x) →
    s.mem x = (r.visit i).store.mem x
  done : ∀ x, (∀ k, i ≤ k → k ≤ n → ¬ f.Writes args (r.visit k) x) →
    s.mem x = (r.visit j).store.mem x

/-- Two loops run one after the other for the same number of rounds, with the same counters, and
what the one needs from the other comes in no later a round. -/
structure Paired (p : FusionPlan) (r : f.Run args mem) (e : BlockId) (a b : Loop)
    (m n m' n' : Nat) : Prop extends r.Through e a b m n m' n' where
  rounds : r.round a n = r.round b n'
  counters : ∀ i j, m ≤ i → i ≤ n → m' ≤ j → j ≤ n' → r.round a i = r.round b j →
    r.env i p.first.iv = r.env j p.second.iv
  forward : ∀ i j x y c, m ≤ i → i ≤ n → m' ≤ j → j ≤ n' → r.block j ∉ p.retired →
    f.Touches args (r.visit i) x c → f.Touches args (r.visit j) y c →
      f.writesMemory x ∨ f.writesMemory y → r.round a i ≤ r.round b j

variable (h : p.Accepted f e a b)

include h

theorem Accepted.not_writes_retired (hk : r.block k ∈ p.retired) :
    ¬ f.Writes args (r.visit k) x := by
  rintro ⟨i, hi, ht⟩
  exact (h.clean.unneeded _ hk i ht.access.1).1 hi

theorem Accepted.not_touches_latch {i : InstId} (hk : r.block k = p.first.latch) :
    ¬ f.Touches args (r.visit k) i x := by
  intro ht
  obtain ⟨hi, hacc⟩ := ht.access
  rw [Func.accessesMemory] at hacc
  rcases h.plan.counts i (hk ▸ hi) with rfl | hterm
  · obtain ⟨iv, -, -, hnext, hc⟩ := h.counter_first
    obtain ⟨op, hop, hinc⟩ := hc.next
    rw [hnext, hop] at hacc
    obtain ⟨c, ⟨rfl, -⟩ | ⟨rfl, -⟩ | ⟨rfl, -⟩⟩ := Region.increment?_spec hinc <;> cases hacc
  · obtain ⟨op, hop, hterm⟩ := (Option.any_eq_true ..).1 hterm
    rw [hop] at hacc
    cases op <;> first
      | exact absurd hterm Bool.false_ne_true
      | exact absurd hacc Bool.false_ne_true

namespace Beside

theorem skip (hs : p.Beside r e n m' i j s) (hj : j < r.last) (hr : r.block j ∈ p.retired) :
    p.Beside r e n m' i (j + 1) s where
  first := hs.first
  second := fun d hd hc => by
    rw [store_succ hj, final, leave_env_of_not_mem (hd _ hr), hs.second d hd hc]
  undone := fun x hx => hs.undone x fun k h₁ h₂ => hx k h₁ (by omega)
  done := fun x hx => by
    rw [store_succ hj, final, leave_mem_of_not_writes (step_spec hj).1 (h.not_writes_retired hr),
      hs.done x hx]

theorem step_first (hs : p.Beside r e n m' i j w'.store)
    (hw' : p.Mirrors f args (p.ReadFirst f e) w' (r.visit i)) (hi : i < r.last)
    (hin : f.InLoop e p.first.header (r.block i))
    (hover : ∀ x, (∀ k, i < k → k ≤ n → ¬ f.Writes args (r.visit k) x) →
      (r.visit (i + 1)).store.mem x = (r.visit m').store.mem x)
    (hmj : m' ≤ j) (hj : j ≤ r.last)
    (hclear : ∀ x, f.Writes args (r.visit i) x →
      ∀ k, m' ≤ k → k < j → ¬ f.Writes args (r.visit k) x) :
    p.Beside r e n m' (i + 1) j ((p.fused f).leave args w') := by
  have hw := h.wellFormed
  have hp := h.fits
  have hc := h.clean
  have hstore := store_succ hi
  have hlive := (step_spec hi).1
  refine ⟨fun d hd => ?_, fun d hd hnot => ?_, fun x hx => ?_, fun x hx => ?_⟩
  · have := hw'.sees_leave hw hp hc d hd
    rwa [heir_of_ne (hd.1.ne hc hp), ← final, ← hstore] at this
  · rw [hw'.env_leave_of_not_mem hw hp fun hm => hnot ⟨_, hin, hm⟩, hs.second d hd hnot]
  · rw [hstore, final]
    exact hw'.mem_leave hw hp hc (hs.undone x hx)
  · by_cases hwr : f.Writes args (r.visit i) x
    · have hpast := hclear x hwr
      rw [hw'.mem_leave hw hp hc (hs.undone x hpast), ← final, ← hstore,
        hover x fun k h₁ h₂ => hx k h₁ h₂, store_mem_eq hmj hj hpast]
    · rw [hw'.mem_leave_of_not_writes hw hp hc hwr]
      refine hs.done x fun k h₁ h₂ => ?_
      rcases Nat.lt_or_eq_of_le h₁ with h₁ | rfl
      · exact hx k h₁ h₂
      · exact hwr

theorem step_second (hs : p.Beside r e n m' i j w'.store)
    (hw' : p.Mirrors f args (p.ReadSecond f e) w' (r.visit j)) (hj : j < r.last) (hmj : m' ≤ j)
    (hin : f.InLoop e p.second.header (r.block j)) :
    p.Beside r e n m' i (j + 1) ((p.fused f).leave args w') := by
  have hw := h.wellFormed
  have hp := h.fits
  have hc := h.clean
  have hstore := store_succ hj
  refine ⟨fun d hd => ?_, fun d hd hnot => ?_, fun x hx => ?_, fun x hx => ?_⟩
  · rw [hw'.env_leave_of_not_mem hw hp fun hm => hd.2 ⟨_, hin, hm⟩, hs.first d hd]
  · have := hw'.sees_leave hw hp hc d ⟨.inl hd, hnot⟩
    rwa [heir_of_ne (hd.ne hc hp), ← final, ← hstore] at this
  · rw [hw'.mem_leave_of_not_writes hw hp hc (hx j hmj j.lt_succ_self)]
    exact hs.undone x fun k h₁ h₂ => hx k h₁ (by omega)
  · rw [hstore, final]
    exact hw'.mem_leave hw hp hc (hs.done x hx)

end Beside

namespace Paired

variable (hr : p.Paired r e a b m n m' n')

include hr

theorem stayFirst : r.Stay e p.first.header m n := h.plan.first.header ▸ hr.first

theorem staySecond : r.Stay e p.second.header m' n' := h.plan.second.header ▸ hr.second

theorem leaveFirst : r.block n = p.first.header ∧ r.block (n + 1) = p.second.preheader := by
  have hs := hr.stayFirst h
  have := h.fits.first.leave _ _ (hs.within n hs.le le_rfl) (edge hs.lt) hs.leave
  rwa [h.fits.meets] at this

theorem leaveSecond : r.block n' = p.second.header ∧ r.block (n' + 1) = p.second.exit := by
  have hs := hr.staySecond h
  exact h.fits.second.leave _ _ (hs.within n' hs.le le_rfl) (edge hs.lt) hs.leave

theorem between (hnk : n < k) (hkm : k < m') : r.block k ∈ p.retired := by
  refine h.fits.mem_retired.2 (.inl ?_)
  rcases hr.across.between k hnk hkm with hk | hk
  · exact Option.some.inj (hk.symm.trans h.plan.second.preheader)
  · rw [← h.plan.second.guard, h.fits.unguarded] at hk
    cases hk

/-- What the first loop does not write any more is there when the second begins. -/
theorem mem_over (hi : i ≤ n) (hx : ∀ k, i < k → k ≤ n → ¬ f.Writes args (r.visit k) x) :
    (r.visit (i + 1)).store.mem x = (r.visit m').store.mem x := by
  have hm' := hr.across.lt
  refine (store_mem_eq (by omega) (hr.on_second hr.second.le).le fun k h₁ h₂ => ?_).symm
  by_cases hk : k ≤ n
  · exact hx k (by omega) hk
  · exact h.not_writes_retired (hr.between h (by omega) h₂)

theorem round_lt_of_latch (hmi : m ≤ i) (hik : i < k) (hk : k ≤ n)
    (hi : r.block i = p.first.latch) : r.round a i < r.round a k := by
  have hw := h.wellFormed
  have hs := hr.first
  have hi' : i < r.last := by have := hs.lt; omega
  have hnext : r.block (i + 1) = a.header := by
    have := edge hi'
    rw [hi] at this
    rw [← h.plan.first.header]
    exact (h.fits.first.round _).1 this
  have hlt := round_lt hw h.first (Nat.lt_succ_self i)
    (fun k h₁ h₂ => hs.within k (by omega) (by omega)) hnext
  have hle := round_mono hw h.first (Nat.succ_le_of_lt hik)
    fun k h₁ h₂ => hs.within k (by omega) (by omega)
  exact hlt.trans_le hle

end Paired

end FusionPlan

end LoopFusion
