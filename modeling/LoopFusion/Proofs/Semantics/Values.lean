import Mathlib.Data.List.TakeWhile
import LoopFusion.Proofs.Semantics.Machine
import LoopFusion.Proofs.Verified

/-!
Values along a run of a well-formed function. An instruction changes its own result only, so a value
stays until control comes to its block again, and wherever it is known it is what its operation
makes of its operands there.
-/

namespace LoopFusion

open Relation LoopFusion.Flow

namespace Func

variable {f : Func} {e b d : BlockId} {i : InstId} {op : Operation} {v : Value} {args : List Int}
  {pre post : List InstId} {mem : Memory}

/-- A value of the function that has been computed wherever control is in `b`. -/
structure Defined (f : Func) (e b : BlockId) (v : Value) : Prop where
  usable : f.Usable v
  ahead : f.Ahead e b v

theorem Defined.trans (h : f.Defined e d v) (hd : Dom f.Edge e d b) : f.Defined e b v :=
  ⟨h.usable, h.ahead.trans hd⟩

namespace WellFormed

variable (hw : f.WellFormed e)

include hw

theorem defined_operand (hb : b ∈ f.layout) (hr : f.Leads e b) (hi : i ∈ f.body b)
    (hop : f.op? i = some op) (hphi : ¬ op.isPhi) (hv : v ∈ op.operands) : f.Defined e b v := by
  obtain ⟨k, hk⟩ := List.mem_iff_getElem?.1 hi
  exact ⟨(hw.uses b hb k i hk op hop hphi v hv).1, hw.ahead hb hr hi hop hphi hv⟩

theorem defined_incoming {p : BlockId} (hb : b ∈ f.layout) (hp : f.Leads e p) (hpb : f.Edge p b)
    (hi : i ∈ f.body b) (h : f.choice? (some p) i = some v) : f.Defined e p v := by
  rw [choice?, Option.bind_some] at h
  obtain ⟨op, hop⟩ := hw.known b hb i hi
  cases op with
  | phi incoming =>
    rw [Func.incoming, hop] at h
    obtain ⟨-, -, hval⟩ := hw.phis b hb (hp.tail hpb) i hi incoming hop
    obtain ⟨hu, hav⟩ := hval p v (mem_of_lookup h)
    exact ⟨hu, hav.ahead hp⟩
  | _ => simp [Func.incoming, hop] at h

theorem eval_operand {w : Visit} (hl : w.block ∈ f.layout) (hbody : f.body w.block = pre ++ i :: post)
    (hop : f.op? i = some op) (hphi : ¬ op.isPhi) (hv : v ∈ op.operands) :
    v.eval args (f.upTo args w pre).env = v.eval args (f.leave args w).env := by
  have hk : (f.body w.block)[pre.length]? = some i := by simp [hbody]
  refine Value.eval_congr ?_
  rintro d rfl
  obtain ⟨-, db, dk, hplace, hcond⟩ := hw.uses _ hl _ i hk op hop hphi _ hv
  obtain ⟨hdl, hd⟩ := mem_of_placeOf? hplace
  have hrest : d ∉ i :: post := by
    intro hm
    have hdb : d ∈ f.body w.block := hbody ▸ List.mem_append_right _ hm
    obtain rfl := hw.block_unique hl hdl hdb hd
    rw [if_pos rfl] at hcond
    obtain ⟨hdk, hget, -⟩ := List.idxOf?_eq_some_iff.1 (placeOf?_eq_some.1 hplace).2.2
    have hpre : d ∈ pre := by
      rw [← hget]
      simp only [hbody, List.getElem_append_left hcond]
      exact List.getElem_mem _
    have hn := hw.nodupBody _ hl
    rw [hbody, List.nodup_append] at hn
    exact hn.2.2 d hpre d hm rfl
  rw [leave_of_body hbody, foldl_env_of_not_mem hrest]

/-- At the end of its block an instruction holds what its operation makes of its operands. -/
theorem leave_env_fold? {w : Visit} (hl : w.block ∈ f.layout) (hi : i ∈ f.body w.block)
    (hop : f.op? i = some op) {x : Int}
    (hx : op.fold? (Value.eval args (f.leave args w).env) = some x) :
    (f.leave args w).env i = x := by
  obtain ⟨pre, post, hbody⟩ := List.append_of_mem hi
  have hphi : ¬ op.isPhi := by
    cases op <;> first
      | exact Bool.false_ne_true
      | cases hx
  have hx' : op.fold? (Value.eval args (f.upTo args w pre).env) = some x := by
    rw [← hx]
    exact Operation.fold?_congr fun v hv => hw.eval_operand hl hbody hop hphi hv
  have hn := hw.nodupBody _ hl
  rw [hbody] at hn
  have hpost : i ∉ post := (List.nodup_cons.1 (List.nodup_append.1 hn).2.1).1
  rw [leave_of_body hbody, List.foldl_cons, foldl_env_of_not_mem hpost, exec_of_fold? hop hx']
  exact Function.update_self ..

theorem touches_iff {w : Visit} {a : Int} (hl : w.block ∈ f.layout) :
    f.Touches args w i a ↔ i ∈ f.body w.block ∧ ∃ addr,
      (f.op? i).bind Operation.address? = some addr ∧ addr.eval args (f.leave args w).env = a := by
  have haddr : ∀ {op : Operation} {addr}, op.address? = some addr →
      ¬ op.isPhi ∧ addr ∈ op.operands := by
    intro op addr h
    cases op <;> cases h <;> simp [Operation.isPhi, Operation.operands]
  constructor
  · rintro ⟨-, pre, post, op, addr, hbody, hop, ha, rfl⟩
    obtain ⟨hphi, hv⟩ := haddr ha
    exact ⟨by simp [hbody], addr, by rw [hop]; exact ha,
      (hw.eval_operand hl hbody hop hphi hv).symm⟩
  · rintro ⟨hi, addr, ha, rfl⟩
    obtain ⟨op, hop, ha⟩ := Option.bind_eq_some_iff.1 ha
    obtain ⟨pre, post, hbody⟩ := List.append_of_mem hi
    obtain ⟨hphi, hv⟩ := haddr ha
    exact ⟨hl, pre, post, op, addr, hbody, hop, ha, hw.eval_operand hl hbody hop hphi hv⟩

end WellFormed

theorem result?_spec {w : Visit} {x : Option Int} {mem' : Memory}
    (h : f.result? args w = some (x, mem')) : f.Returns w.block ∧ (f.leave args w).mem = mem' := by
  rw [result?] at h
  split at h
  case isFalse => cases h
  case isTrue hl =>
    split at h
    case h_1 hop =>
      exact ⟨⟨hl, by rw [hop]; rfl⟩, (Prod.mk.inj (Option.some.inj h)).2⟩
    case h_2 => cases h

namespace Run

/-- The block of the `n`-th visit. -/
def block (r : f.Run args mem) (n : Nat) : BlockId := (r.visit n).block

/-- The store at the end of the `n`-th visit. -/
def final (r : f.Run args mem) (n : Nat) : Store := f.leave args (r.visit n)

abbrev env (r : f.Run args mem) (n : Nat) : InstId → Int := (r.final n).env

/-- The `n`-th visit belongs to the run, and its block to the function. -/
structure On (r : f.Run args mem) (n : Nat) : Prop where
  le : n ≤ r.last
  live : r.block n ∈ f.layout

variable {r : f.Run args mem} {m n : Nat}

theorem step_spec (h : n < r.last) : r.block n ∈ f.layout ∧
    (∃ op, f.exitOp? (r.block n) = some op ∧
      op.target? (Value.eval args (r.env n)) = some (r.block (n + 1))) ∧
    (r.visit (n + 1)).source? = some (r.block n) ∧ (r.visit (n + 1)).store = r.final n :=
  next?_eq_some.1 (r.step n h)

theorem on_of_lt (h : n < r.last) : r.On n := ⟨h.le, (step_spec h).1⟩

theorem On.of_succ (h : r.On (n + 1)) : r.On n := on_of_lt h.le

theorem On.of_le (h : r.On n) (hm : m ≤ n) : r.On m := by
  rcases hm.lt_or_eq with hlt | rfl
  · exact on_of_lt (hlt.trans_le h.le)
  · exact h

theorem target?_mem {val : Value → Int} {t : BlockId} (h : op.target? val = some t) :
    t ∈ op.targets := by
  cases op with
  | condBr c a b =>
    obtain rfl := Option.some.inj h
    simp only [Operation.targets, List.mem_cons, List.not_mem_nil, or_false]
    exact ite_eq_or_eq ..
  | br => simp_all [Operation.target?, Operation.targets]
  | _ => cases h

theorem edge (h : n < r.last) : f.Edge (r.block n) (r.block (n + 1)) := by
  obtain ⟨hl, ⟨op, hop, ht⟩, -, -⟩ := step_spec h
  exact ⟨hl, mem_successors.2 ⟨op, hop, target?_mem ht⟩⟩

theorem env_succ {i : InstId} (h : n < r.last) (hi : i ∉ f.body (r.block (n + 1))) :
    r.env (n + 1) i = r.env n i := by
  rw [env, final, leave_env_of_not_mem hi, (step_spec h).2.2.2]

theorem env_phi (h : n < r.last) (hi : i ∈ f.phis (r.block (n + 1)))
    (hv : f.choice? (some (r.block n)) i = some v) : r.env (n + 1) i = v.eval args (r.env n) := by
  obtain ⟨-, -, hsource, hstore⟩ := step_spec h
  have henter : (f.enter args (r.visit (n + 1))).env i = v.eval args (r.env n) := by
    rw [enter_env_of_choice? hi (hsource ▸ hv), hstore]
  rw [env, final, leave, upTo, foldl_env_phi (List.mem_takeWhile_imp hi), henter]

section

variable (hw : f.WellFormed e)

include hw

theorem block_zero : r.block 0 = e := by
  obtain ⟨b, hb, he⟩ := Option.map_eq_some_iff.1 r.start
  rw [hw.entry] at hb
  rw [block, ← he]
  exact (Option.some.inj hb).symm

theorem leads (h : n ≤ r.last) : f.Leads e (r.block n) := by
  induction n with
  | zero => rw [block_zero hw]
  | succ n ih => exact (ih (by omega)).tail (edge h)

/-- A value stays as long as control does not come to its block. -/
theorem env_eq (hd : d ∈ f.layout) (hi : i ∈ f.body d) (hn : r.On n) (hmn : m ≤ n)
    (h : ∀ k, m < k → k ≤ n → r.block k ≠ d) : r.env n i = r.env m i := by
  induction n, hmn using Nat.le_induction with
  | base => rfl
  | succ n hmn ih =>
    rw [← ih hn.of_succ fun k hk hkn => h k hk (by omega)]
    refine env_succ hn.le fun hm => h (n + 1) (by omega) le_rfl ?_
    exact hw.block_unique hd hn.live hi hm

/-- Control that has come to `b` has come to what dominates `b`, and not to `b` since. -/
theorem dom_pred (h : n < r.last) (hd : Dom f.Edge e d (r.block (n + 1)))
    (hne : r.block (n + 1) ≠ d) : Dom f.Edge e d (r.block n) :=
  hd.pred (Ne.symm hne) (leads hw h.le) (edge h)

theorem env_fold? (hn : r.On n) (hb : b ∈ f.layout) (hi : i ∈ f.body b) (hop : f.op? i = some op)
    (hdom : Dom f.Edge e b (r.block n)) {x : Int}
    (hx : op.fold? (Value.eval args (r.env n)) = some x) : r.env n i = x := by
  induction n with
  | zero =>
    rw [block_zero hw] at hdom
    refine hw.leave_env_fold? hn.live ?_ hop hx
    change i ∈ f.body (r.block 0)
    rwa [block_zero hw, ← hdom.eq_root]
  | succ n ih =>
    by_cases hne : r.block (n + 1) = b
    · exact hw.leave_env_fold? hn.live (by rwa [← hne] at hi) hop hx
    · have hdom' := dom_pred hw hn.le hdom hne
      have hphi : ¬ op.isPhi := by
        cases op <;> first
          | exact Bool.false_ne_true
          | cases hx
      rw [env_succ hn.le fun hm => hne (hw.block_unique hb hn.live hi hm)]
      refine ih hn.of_succ hdom' ?_
      rw [← hx]
      refine Operation.fold?_congr fun v hv => Value.eval_congr ?_
      rintro j rfl
      obtain ⟨c, hc, hj, hcb⟩ := (hw.defined_operand hb hdom.reach_left hi hop hphi hv).ahead
      refine (env_succ hn.le fun hm => ?_).symm
      -- an operand is computed before, so control has not come to its block either
      have hcn := hw.block_unique hc hn.live hj hm
      exact hne (hcn.trans (hcb.antisymm (hcn ▸ hdom)))

end

end Run

end Func

end LoopFusion
