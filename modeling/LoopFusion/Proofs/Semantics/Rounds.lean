import Mathlib.Tactic.Ring
import LoopFusion.Proofs.Flow.Counter
import LoopFusion.Proofs.Flow.Forest
import LoopFusion.Proofs.Semantics.Values
import LoopFusion.Symbolic.TripCount

/-!
Loops along a run. While control stays in a loop, what is computed outside it stays, the induction
variable moves by one step each time around, and the test of the header has held every time.
-/

namespace LoopFusion

open Relation LoopFusion.Flow

/-- A loop with an induction variable, entered from one block and repeated from one block. -/
structure Func.Counting (f : Func) (e : BlockId) (l : Loop) (pre latch : BlockId)
    (iv : InductionVariable) : Prop where
  headed : f.InLoop e l.header l.header
  counter : f.Counter l.header pre latch iv
  enter : ∀ q, f.Edge q l.header ∧ ¬ f.InLoop e l.header q ↔ q = pre
  back : ∀ q, f.Back e q l.header → q = latch

theorem LoopForest.exists_counting {f : Func} {e : BlockId} {l : Loop} {iv : InductionVariable}
    (hw : f.WellFormed e) (hl : l ∈ f.forest.loops) (hiv : l.iv? = some iv) :
    ∃ pre latch, f.Counting e l pre latch iv := by
  have hf := hw.inArena
  have hr := region_is hf hw.entry hl
  obtain ⟨pre, latch, hpre, hlatch, hcounter⟩ := exists_counter hl hiv
  refine ⟨pre, latch, headed hf hw.entry hl, hcounter, ?_, fun q hq => ?_⟩
  · rw [preheader?_eq hl, Region.preheader?_eq_some hr hf] at hpre
    exact hpre.1
  · have hlatch : only? l.region.latches = some latch := hlatch
    rw [only?_eq_some_iff_mem hr.nodupLatches] at hlatch
    exact (hlatch q).1 ((hr.latches q).2 hq)

namespace Func.Run

variable {f : Func} {args : List Int} {mem : Memory} {r : f.Run args mem} {e d h : BlockId}
  {l : Loop} {m n k : Nat} {v : Value} {i : InstId} {iv : InductionVariable}
  {pre latch : BlockId}

/-- From the `m`-th to the `n`-th visit control stays in the loop of `h`. -/
def Within (r : f.Run args mem) (e h : BlockId) (m n : Nat) : Prop :=
  ∀ k, m ≤ k → k ≤ n → f.InLoop e h (r.block k)

theorem Within.succ (hm : r.Within e h m n) (hn : f.InLoop e h (r.block (n + 1))) :
    r.Within e h m (n + 1) := by
  intro k hmk hkn
  rcases Nat.le_succ_iff.1 hkn with hkn | rfl
  · exact hm k hmk hkn
  · exact hn

/-- How often control has gone round the loop since it came in. -/
def round (r : f.Run args mem) (l : Loop) : Nat → Nat
  | 0 => 0
  | n + 1 =>
    if r.block (n + 1) = l.header then if l.contains (r.block n) then r.round l n + 1 else 0
    else r.round l n

theorem round_succ_of_ne (h : r.block (n + 1) ≠ l.header) : r.round l (n + 1) = r.round l n :=
  if_neg h

section

variable (hw : f.WellFormed e)

include hw

theorem env_within (hn : r.On n) (hmn : m ≤ n) (hin : r.Within e h m n) (hd : d ∈ f.layout)
    (hi : i ∈ f.body d) (hout : ¬ f.InLoop e h d) : r.env n i = r.env m i :=
  env_eq hw hd hi hn hmn fun k hmk hkn he => hout (he ▸ hin k hmk.le hkn)

theorem inLoop_pred (hn : n < r.last) (hin : f.InLoop e h (r.block (n + 1)))
    (hne : r.block (n + 1) ≠ h) : f.InLoop e h (r.block n) :=
  hin.back hne (leads hw hn.le) (edge hn)

theorem ne_header_zero (hl : l ∈ f.forest.loops) : ¬ f.InLoop e l.header (r.block 0) := by
  intro hin
  rw [block_zero hw] at hin
  obtain ⟨q, hq, -⟩ := LoopForest.headed hw.inArena hw.entry hl
  exact hw.unentered q (hin.dom.eq_root ▸ hq.edge)

theorem round_of_enter (hl : l ∈ f.forest.loops) (hb : r.block (n + 1) = l.header)
    (hout : ¬ f.InLoop e l.header (r.block n)) : r.round l (n + 1) = 0 := by
  rw [round, if_pos hb, if_neg]
  rwa [LoopForest.contains_iff hw.inArena hw.entry hl]

theorem round_of_back (hl : l ∈ f.forest.loops) (hb : r.block (n + 1) = l.header)
    (hin : f.InLoop e l.header (r.block n)) : r.round l (n + 1) = r.round l n + 1 := by
  rw [round, if_pos hb, if_pos]
  rwa [LoopForest.contains_iff hw.inArena hw.entry hl]

theorem round_mono (hl : l ∈ f.forest.loops) (hmn : m ≤ n) (hin : r.Within e l.header m n) :
    r.round l m ≤ r.round l n := by
  induction n, hmn using Nat.le_induction with
  | base => exact le_rfl
  | succ n hmn ih =>
    have ih := ih fun k hmk hkn => hin k hmk (by omega)
    by_cases hb : r.block (n + 1) = l.header
    · rw [round_of_back hw hl hb (hin n hmn (by omega))]
      omega
    · rwa [round_succ_of_ne hb]

theorem round_lt (hl : l ∈ f.forest.loops) (hmn : m < n) (hin : r.Within e l.header m n)
    (hb : r.block n = l.header) : r.round l m < r.round l n := by
  obtain ⟨n, rfl⟩ : ∃ k, n = k + 1 := ⟨n - 1, by omega⟩
  rw [round_of_back hw hl hb (hin n (by omega) (by omega))]
  have := round_mono hw hl (Nat.le_of_lt_succ hmn) fun k hmk hkn => hin k hmk (by omega)
  omega

end

end Func.Run

namespace Func.Counting

open Run

variable {f : Func} {args : List Int} {mem : Memory} {r : f.Run args mem} {e : BlockId} {l : Loop}
  {m n : Nat} {iv : InductionVariable} {pre latch : BlockId} (hc : f.Counting e l pre latch iv)

include hc

theorem pre_spec : f.Edge pre l.header ∧ ¬ f.InLoop e l.header pre := (hc.enter pre).2 rfl

theorem latch_edge : f.Edge latch l.header := by
  obtain ⟨q, hq, -⟩ := hc.headed
  exact hc.back q hq ▸ hq.edge

theorem mem_body : iv.phi ∈ f.body l.header := (List.takeWhile_sublist _).mem hc.counter.mem

theorem header_mem : l.header ∈ f.layout := by
  obtain ⟨y, hy⟩ := hc.headed.exists_edge
  exact hy.1

section

variable (hw : f.WellFormed e)

include hw

theorem dom_pre : Dom f.Edge e pre l.header := by
  refine hc.headed.dom_entering ?_ fun q hq hout => (hc.enter q).1 ⟨hq, hout⟩
  rintro rfl
  exact hw.unentered _ hc.latch_edge

theorem start_defined : f.Defined e pre iv.start := by
  obtain ⟨incoming, hop, -, hstart, -⟩ := hc.counter.incoming
  refine hw.defined_incoming hc.header_mem (hc.dom_pre hw).reach_left hc.pre_spec.1 hc.mem_body ?_
  rwa [choice?, Option.bind_some, Func.incoming, hop]

theorem eval_start (hn : r.On n) (hmn : m ≤ n) (hin : r.Within e l.header m n) :
    iv.start.eval args (r.env n) = iv.start.eval args (r.env m) := by
  refine Value.eval_congr fun i hi => ?_
  obtain ⟨d, hd, hid, hdom⟩ := hi ▸ (hc.start_defined hw).ahead
  refine env_within hw hn hmn hin hd hid fun hind => hc.pre_spec.2 ?_
  exact Back.inLoop ⟨hc.pre_spec.1, hind.dom.trans hdom⟩

section

variable (hn : r.On (n + 1)) (hb : r.block (n + 1) = l.header)

include hn hb

/-- The latch adds the step to the variable. -/
theorem env_next (hchoice : f.choice? (some (r.block n)) iv.phi = some (.inst iv.next)) :
    r.env n iv.next = r.env n iv.phi + iv.step := by
  have hlt : n < r.last := hn.le
  have hedge := edge hlt
  rw [hb] at hedge
  obtain ⟨c, hcn, hid, hdom⟩ := (hw.defined_incoming hc.header_mem (leads hw hlt.le) hedge
    hc.mem_body hchoice).ahead
  obtain ⟨op, hopn, hinc⟩ := hc.counter.next
  refine env_fold? hw hn.of_succ hcn hid hopn hdom ?_
  obtain ⟨c, ⟨rfl, hs⟩ | ⟨rfl, hs⟩ | ⟨rfl, hs⟩⟩ := Region.increment?_spec hinc <;>
    simp only [Operation.fold?, BinaryOp.eval, InductionVariable.value, Value.eval, hs,
      Option.some.injEq] <;> omega

/-- The start does not depend on the phis of the header. -/
theorem eval_start_enter (hout : ¬ f.InLoop e l.header (r.block n)) :
    iv.start.eval args (r.env n) = iv.start.eval args (r.env (n + 1)) := by
  have hlt : n < r.last := hn.le
  have hedge := edge hlt
  rw [hb] at hedge
  refine Value.eval_congr fun i hi => (env_succ hlt fun hm => ?_).symm
  obtain ⟨d, hd, hid, hdom⟩ := hi ▸ (hc.start_defined hw).ahead
  have hdh := hw.block_unique hd hn.live hid hm
  refine hout (Back.inLoop ⟨hedge, ?_⟩)
  rwa [(hc.enter _).1 ⟨hedge, hout⟩, ← hb, hdh]

end

variable (hl : l ∈ f.forest.loops)

include hl

/-- On every round the induction variable has moved from its start by as many steps. -/
theorem env_phi (hn : r.On n) (hin : f.InLoop e l.header (r.block n)) :
    r.env n iv.phi = iv.start.eval args (r.env n) + iv.step * r.round l n := by
  -- by induction on the visit, which comes back to the header, enters the loop or stays in it
  induction n with
  | zero => exact absurd hin (ne_header_zero hw hl)
  | succ n ih =>
    have hlt : n < r.last := hn.le
    obtain ⟨incoming, hop, -, hstart, hnext⟩ := hc.counter.incoming
    by_cases hb : r.block (n + 1) = l.header
    · have hphi : iv.phi ∈ f.phis (r.block (n + 1)) := hb ▸ hc.counter.mem
      have hedge := edge hlt
      rw [hb] at hedge
      by_cases hback : f.InLoop e l.header (r.block n)
      · have hlatch : r.block n = latch := hc.back _ ⟨hedge, hback.dom⟩
        have hchoice : f.choice? (some (r.block n)) iv.phi = some (.inst iv.next) := by
          rwa [hlatch, choice?, Option.bind_some, Func.incoming, hop]
        have hwithin : r.Within e l.header n (n + 1) :=
          Within.succ (fun k h₁ h₂ => by rwa [show k = n by omega]) (hb ▸ hc.headed)
        rw [round_of_back hw hl hb hback, Run.env_phi hlt hphi hchoice,
          hc.eval_start hw hn n.le_succ hwithin, Value.eval, hc.env_next hw hn hb hchoice,
          ih hn.of_succ hback, Nat.cast_succ]
        ring
      · have hchoice : f.choice? (some (r.block n)) iv.phi = some iv.start := by
          rwa [(hc.enter _).1 ⟨hedge, hback⟩, choice?, Option.bind_some, Func.incoming, hop]
        rw [round_of_enter hw hl hb hback, Run.env_phi hlt hphi hchoice, Nat.cast_zero, mul_zero,
          add_zero]
        exact hc.eval_start_enter hw hn hb hback
    · have hback := inLoop_pred hw hlt hin hb
      have hwithin : r.Within e l.header n (n + 1) :=
        Within.succ (fun k h₁ h₂ => by rwa [show k = n by omega]) hin
      rw [round_succ_of_ne hb, hc.eval_start hw hn n.le_succ hwithin,
        env_succ hlt fun hm => hb (hw.block_unique hc.header_mem hn.live hc.mem_body hm),
        ih hn.of_succ hback]

end

end Func.Counting

end LoopFusion
