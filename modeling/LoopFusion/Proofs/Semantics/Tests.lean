import LoopFusion.Proofs.Semantics.Rounds

/-!
The test of a loop along a run. Control stays in the loop after the header exactly if the test holds
there, so in the middle of a round it has held on this round and on all rounds before.
-/

namespace LoopFusion

open Relation LoopFusion.Flow

/-- Where the test `stay` of the loop `l` comes from. -/
structure StayTest.Of (stay : StayTest) (f : Func) (l : Loop) : Prop where
  iv : l.iv? = some stay.iv
  branch : ∃ c t t' p lhs rhs onTrue, f.exitOp? l.header = some (.condBr (.inst c) t t') ∧
    f.op? c = some (.compare p lhs rhs) ∧ (stay.bound = lhs ∨ stay.bound = rhs) ∧
    stayOnTrue? l t t' = some onTrue ∧ ∀ val : Value → Int,
      stay.test.holds (val stay.iv.value) (val stay.bound) = (p.holds (val lhs) (val rhs) == onTrue)

theorem StayTest.orient?_spec {iv : InductionVariable} {op : Operation} {test : Comparison}
    {bound : Value} (h : orient? iv op = some (test, bound)) :
    ∃ p lhs rhs, op = .compare p lhs rhs ∧ (bound = lhs ∨ bound = rhs) ∧
      ∀ val : Value → Int,
        test.holds (val iv.value) (val bound) = p.holds (val lhs) (val rhs) := by
  cases op with
  | compare p lhs rhs =>
    rw [orient?] at h
    split at h
    case isTrue hl =>
      cases h
      exact ⟨_, _, _, rfl, .inr rfl, fun val => by rw [hl]⟩
    case isFalse =>
      obtain ⟨hr, h⟩ := Option.ite_none_right_eq_some.1 h
      cases h
      exact ⟨_, _, _, rfl, .inl rfl, fun val => by rw [← hr, Comparison.holds_swapped]⟩
  | _ => cases h

theorem StayTest.of_ofLoop? {f : Func} {l : Loop} {stay : StayTest}
    (h : ofLoop? f l = some stay) : stay.Of f l := by
  simp only [ofLoop?, Option.bind_eq_bind, Option.bind_eq_some_iff] at h
  obtain ⟨iv, hiv, _, -, op, hop, h⟩ := h
  cases op with
  | condBr cond t t' =>
    simp only [Option.bind_eq_some_iff, Option.pure_def, Option.some.injEq] at h
    obtain ⟨onTrue, hon, j, hj, _, hc, ⟨test, bound⟩, hor, rfl⟩ := h
    obtain ⟨p, lhs, rhs, rfl, hbound, hval⟩ := orient?_spec hor
    obtain rfl : cond = .inst j := by
      cases cond <;> first
        | exact congrArg Value.inst (Option.some.inj hj)
        | cases hj
    refine ⟨hiv, j, t, t', p, lhs, rhs, onTrue, hop, hc, hbound, hon, fun val => ?_⟩
    rw [← hval]
    cases onTrue
    · simp [Comparison.holds_inverse]
    · simp
  | _ => cases h

namespace Func.Run

variable {f : Func} {args : List Int} {mem : Memory} {r : f.Run args mem} {e : BlockId}
  {l : Loop} {n : Nat} {stay : StayTest} {S B : Int}

section

variable (hw : f.WellFormed e) (hst : stay.Of f l)

include hw hst

theorem bound_defined (hl : l ∈ f.forest.loops) : f.Defined e l.header stay.bound := by
  have hhead := LoopForest.headed hw.inArena hw.entry hl
  have hr := hhead.reach
  have hlay : l.header ∈ f.layout := hhead.exists_edge.choose_spec.1
  obtain ⟨c, t, t', p, lhs, rhs, -, hop, hc, hbound, -, -⟩ := hst.branch
  obtain ⟨i, hi, hopi, hterm⟩ := exitOp?_eq_some hop
  obtain ⟨-, d, hd, hcd, hdom⟩ := hw.defined_operand hlay hr (List.mem_of_getLast? hi) hopi
    Bool.false_ne_true (List.mem_singleton_self _)
  refine (hw.defined_operand hd hdom.reach_left hcd hc Bool.false_ne_true ?_).trans hdom
  rcases hbound with rfl | rfl <;> simp [Operation.operands]

variable (hl : l ∈ f.forest.loops)

include hl

theorem inLoop_succ_iff (hn : n < r.last) (hb : r.block n = l.header) :
    f.InLoop e l.header (r.block (n + 1)) ↔
      stay.test.holds (r.env n stay.iv.phi) (stay.bound.eval args (r.env n)) := by
  obtain ⟨c, t, t', p, lhs, rhs, onTrue, hop, hc, -, hon, hval⟩ := hst.branch
  obtain ⟨hlay, ⟨op, hop', htarget⟩, -, -⟩ := step_spec hn
  rw [hb, hop] at hop'
  obtain rfl := Option.some.inj hop'
  obtain ⟨i, hi, hopi, -⟩ := exitOp?_eq_some hop
  rw [← hb] at hi
  obtain ⟨-, d, hd, hcd, hdom⟩ := hw.defined_operand hlay (leads hw hn.le)
    (List.mem_of_getLast? hi) hopi Bool.false_ne_true (List.mem_singleton_self _)
  have hcond : r.env n c =
      if p.holds (lhs.eval args (r.env n)) (rhs.eval args (r.env n)) then 1 else 0 :=
    env_fold? hw (on_of_lt hn) hd hcd hc hdom rfl
  have htest := hval (Value.eval args (r.env n))
  change stay.test.holds (r.env n stay.iv.phi) _ = _ at htest
  rw [htest]
  have hin : ∀ x, l.contains x = true ↔ f.InLoop e l.header x := fun x =>
    LoopForest.contains_iff hw.inArena hw.entry hl
  have hnext : r.block (n + 1) =
      if p.holds (lhs.eval args (r.env n)) (rhs.eval args (r.env n)) then t else t' := by
    have htarget := Option.some.inj htarget
    rw [← htarget, Value.eval, hcond]
    split <;> simp
  rw [hnext, ← hin]
  rw [StayTest.stayOnTrue?] at hon
  split at hon
  case h_1 ht ht' =>
    obtain rfl := Option.some.inj hon
    split <;> simp_all
  case h_2 ht ht' =>
    obtain rfl := Option.some.inj hon
    split <;> simp_all
  case h_3 => cases hon

/-- The test has held on all rounds before, and behind the header on this one. -/
theorem holds_round (hn : r.On n) (hin : f.InLoop e l.header (r.block n))
    (hS : stay.iv.start.eval args (r.env n) = S)
    (hB : ∀ m ≤ n, r.Within e l.header m n → r.block m = l.header →
      stay.bound.eval args (r.env m) = B) :
    ∀ j : Nat, j < r.round l n ∨ j = r.round l n ∧ r.block n ≠ l.header →
      stay.test.holds (S + stay.iv.step * j) B := by
  obtain ⟨pre, latch, hc⟩ := LoopForest.exists_counting hw hl hst.iv
  induction n with
  | zero => exact absurd hin (ne_header_zero hw hl)
  | succ n ih =>
    have hlt : n < r.last := hn.le
    have hback : ∀ {j : Nat}, f.InLoop e l.header (r.block n) → j ≤ r.round l n →
        stay.test.holds (S + stay.iv.step * j) B := by
      intro j hback hj
      have hwithin : r.Within e l.header n (n + 1) :=
        Within.succ (fun k h₁ h₂ => by rwa [show k = n by omega]) hin
      have hS' : stay.iv.start.eval args (r.env n) = S := by
        rw [← hS, hc.eval_start hw hn n.le_succ hwithin]
      have hB' : ∀ m ≤ n, r.Within e l.header m n → r.block m = l.header →
          stay.bound.eval args (r.env m) = B := fun m hm hwm => hB m (by omega) (hwm.succ hin)
      by_cases hb : j = r.round l n ∧ r.block n = l.header
      · obtain ⟨rfl, hb⟩ := hb
        have htest := (inLoop_succ_iff hw hst hl hlt hb).1 hin
        rw [hc.env_phi hw hl hn.of_succ hback, hS', hB' n le_rfl (fun k h₁ h₂ => by
          rwa [show k = n by omega]) hb] at htest
        exact htest
      · refine ih hn.of_succ hback hS' hB' j ?_
        by_cases hj' : j < r.round l n
        · exact .inl hj'
        · exact .inr ⟨by omega, fun h => hb ⟨by omega, h⟩⟩
    intro j hj
    by_cases hb : r.block (n + 1) = l.header
    · have hj := hj.resolve_right fun h => h.2 hb
      by_cases hback' : f.InLoop e l.header (r.block n)
      · rw [round_of_back hw hl hb hback'] at hj
        exact hback hback' (by omega)
      · rw [round_of_enter hw hl hb hback'] at hj
        omega
    · rw [round_succ_of_ne hb] at hj
      exact hback (inLoop_pred hw hlt hin hb) (by omega)

end

end Func.Run

end LoopFusion
