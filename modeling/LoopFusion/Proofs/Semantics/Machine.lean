import Mathlib.Data.List.Induction
import Mathlib.Logic.Function.Basic
import Mathlib.Data.Nat.Init
import Mathlib.Order.Nat
import LoopFusion.Ir.Func

/-!
What a function does when it runs, over the integers. Control goes from block to block of the
layout. On entering a block its phis take their values together, by the edge that control comes
along, and then the other instructions run in order.
-/

namespace LoopFusion

abbrev Memory := Int → Int

structure Store where
  env : InstId → Int
  mem : Memory

namespace Store

def set (s : Store) (i : InstId) (x : Int) : Store := { s with env := Function.update s.env i x }

def write (s : Store) (a x : Int) : Store := { s with mem := Function.update s.mem a x }

end Store

/-- Control comes to a block. -/
structure Visit where
  source? : Option BlockId
  block : BlockId
  store : Store

def Value.eval (args : List Int) (env : InstId → Int) : Value → Int
  | const c => c.toInt
  | param k => args[k]?.getD 0
  | inst i => env i

def BinaryOp.eval : BinaryOp → Int → Int → Int
  | add, a, b => a + b
  | sub, a, b => a - b
  | mul, a, b => a * b

namespace Operation

/-- What an operation makes of its operands, if it looks at nothing else. -/
def fold? (val : Value → Int) : Operation → Option Int
  | binary op l r => some (op.eval (val l) (val r))
  | compare p l r => some (if p.holds (val l) (val r) then 1 else 0)
  | gep base offset => some (val base + val offset)
  | _ => none

/-- Where a terminator goes. -/
def target? (val : Value → Int) : Operation → Option BlockId
  | br t => some t
  | condBr c t e => some (if val c ≠ 0 then t else e)
  | _ => none

end Operation

namespace Func

section

variable (f : Func) (args : List Int)

def exec (s : Store) (i : InstId) : Store :=
  match f.op? i with
  | some (.load a) => s.set i (s.mem (a.eval args s.env))
  | some (.store a v) => s.write (a.eval args s.env) (v.eval args s.env)
  | some op => (op.fold? (Value.eval args s.env)).elim s (s.set i)
  | none => s

/-- What a phi stands for when control comes from `source?`. -/
def choice? (source? : Option BlockId) (i : InstId) : Option Value :=
  source?.bind fun p => (f.incoming i).lookup p

/-- The store after the phis. -/
def enter (v : Visit) : Store :=
  { v.store with
    env := fun i =>
      if i ∈ f.phis v.block then
        (f.choice? v.source? i).elim (v.store.env i) (Value.eval args v.store.env)
      else v.store.env i }

/-- The store after the phis and the given instructions. -/
def upTo (v : Visit) (is : List InstId) : Store := is.foldl (f.exec args) (f.enter args v)

/-- The store at the end of the block. -/
def leave (v : Visit) : Store := f.upTo args v (f.body v.block)

def next? (v : Visit) : Option Visit :=
  if v.block ∈ f.layout then
    ((f.exitOp? v.block).bind (·.target? (Value.eval args (f.leave args v).env))).map
      (⟨some v.block, ·, f.leave args v⟩)
  else none

/-- The returned value and the memory, if the block returns. -/
def result? (v : Visit) : Option (Option Int × Memory) :=
  if v.block ∈ f.layout then
    match f.exitOp? v.block with
    | some (.ret x) => some (x.map (Value.eval args (f.leave args v).env), (f.leave args v).mem)
    | _ => none
  else none

def begin? (mem : Memory) : Option Visit :=
  f.entry?.map fun e => ⟨none, e, fun _ => 0, mem⟩

/-- While control is in the block, the access `i` reads or writes the address `a`. -/
def Touches (v : Visit) (i : InstId) (a : Int) : Prop :=
  v.block ∈ f.layout ∧ ∃ pre post op addr, f.body v.block = pre ++ i :: post ∧
    f.op? i = some op ∧ op.address? = some addr ∧ addr.eval args (f.upTo args v pre).env = a

/-- While control is in the block, a store writes the address `a`. -/
def Writes (v : Visit) (a : Int) : Prop := ∃ i, f.writesMemory i ∧ f.Touches args v i a

end

/-- The first visits of a run, up to some visit. -/
structure Run (f : Func) (args : List Int) (mem : Memory) where
  visit : Nat → Visit
  last : Nat
  start : f.begin? mem = some (visit 0)
  step : ∀ n < last, f.next? args (visit n) = some (visit (n + 1))

def Reaches (f : Func) (args : List Int) (mem : Memory) (v : Visit) : Prop :=
  ∃ r : f.Run args mem, r.visit r.last = v

/-- Started with `mem`, the function returns `x` and leaves `mem'`. -/
def Yields (f : Func) (args : List Int) (mem : Memory) (x : Option Int) (mem' : Memory) : Prop :=
  ∃ v, f.Reaches args mem v ∧ f.result? args v = some (x, mem')

end Func

/-! One block. -/

theorem Value.eval_congr {args : List Int} {env env' : InstId → Int} {v : Value}
    (h : ∀ i, v = .inst i → env i = env' i) : v.eval args env = v.eval args env' := by
  cases v with
  | inst i => exact h i rfl
  | _ => rfl

theorem Operation.fold?_congr {val val' : Value → Int} {op : Operation}
    (h : ∀ v ∈ op.operands, val v = val' v) : op.fold? val = op.fold? val' := by
  cases op <;> simp_all [fold?, operands]

/-- What holds of no elements, and of each element's predecessors with it, holds of the list. -/
theorem prefix_induction {α : Type} {P : List α → Prop} {l : List α} (nil : P [])
    (snoc : ∀ pre x post, l = pre ++ x :: post → P pre → P (pre ++ [x])) :
    ∀ pre post, l = pre ++ post → P pre := by
  intro pre
  induction pre using List.reverseRecOn with
  | nil => exact fun _ _ => nil
  | append_singleton pre x ih =>
    intro post h
    have h : l = pre ++ x :: post := by rw [h, List.append_assoc, List.singleton_append]
    exact snoc pre x post h (ih _ h)

namespace Func

variable {f : Func} {args : List Int} {s : Store} {v w : Visit} {i d : InstId} {op : Operation}
  {is pre post : List InstId} {a x : Int}

theorem exec_of_fold? (hop : f.op? i = some op)
    (h : op.fold? (Value.eval args s.env) = some x) : f.exec args s i = s.set i x := by
  cases op <;> simp_all [exec, Operation.fold?]

theorem exec_load {a : Value} (hop : f.op? i = some (.load a)) :
    f.exec args s i = s.set i (s.mem (a.eval args s.env)) := by
  rw [exec, hop]

theorem exec_store {a v : Value} (hop : f.op? i = some (.store a v)) :
    f.exec args s i = s.write (a.eval args s.env) (v.eval args s.env) := by
  rw [exec, hop]

theorem exec_env_of_ne (h : d ≠ i) : (f.exec args s i).env d = s.env d := by
  unfold exec
  split
  · exact Function.update_of_ne h _ _
  · rfl
  · rename_i op _ _ _
    cases op.fold? (Value.eval args s.env) with
    | none => rfl
    | some x => exact Function.update_of_ne h _ _
  · rfl

theorem exec_mem_of_not_writes (h : ¬ f.writesMemory i) : (f.exec args s i).mem = s.mem := by
  unfold exec
  split
  · rfl
  · rename_i hop
    simp [writesMemory, hop, Operation.writesMemory] at h
  · rename_i op _ _ _
    cases op.fold? (Value.eval args s.env) <;> rfl
  · rfl

theorem foldl_env_of_not_mem (h : d ∉ is) :
    (is.foldl (f.exec args) s).env d = s.env d := by
  induction is generalizing s with
  | nil => rfl
  | cons i is ih =>
    rw [List.mem_cons, not_or] at h
    rw [List.foldl_cons, ih h.2, exec_env_of_ne h.1]

theorem upTo_append :
    f.upTo args v (pre ++ post) = post.foldl (f.exec args) (f.upTo args v pre) :=
  List.foldl_append

theorem upTo_snoc : f.upTo args v (pre ++ [i]) = f.exec args (f.upTo args v pre) i := by
  rw [upTo_append]
  rfl

theorem leave_of_body (h : f.body v.block = pre ++ post) :
    f.leave args v = post.foldl (f.exec args) (f.upTo args v pre) := by
  rw [leave, h, upTo_append]

theorem enter_env_of_not_mem (h : d ∉ f.phis v.block) :
    (f.enter args v).env d = v.store.env d := if_neg h

theorem enter_env_of_choice? {u : Value} (hd : d ∈ f.phis v.block)
    (h : f.choice? v.source? d = some u) :
    (f.enter args v).env d = u.eval args v.store.env := by
  simp only [enter, if_pos hd, h, Option.elim_some]

theorem leave_env_of_not_mem (h : d ∉ f.body v.block) :
    (f.leave args v).env d = v.store.env d := by
  rw [leave, upTo, foldl_env_of_not_mem h]
  exact enter_env_of_not_mem fun hd => h ((List.takeWhile_sublist _).mem hd)

theorem exec_phi (h : f.isPhi i) : f.exec args s i = s := by
  rw [isPhi, Option.any_eq_true] at h
  obtain ⟨op, hop, h⟩ := h
  cases op <;> simp_all [exec, Operation.fold?, Operation.isPhi]

theorem exec_terminator (h : f.isTerminator i) : f.exec args s i = s := by
  rw [isTerminator, Option.any_eq_true] at h
  obtain ⟨op, hop, h⟩ := h
  cases op <;> simp_all [exec, Operation.fold?, Operation.isTerminator]

theorem foldl_env_phi (h : f.isPhi d) : (is.foldl (f.exec args) s).env d = s.env d := by
  induction is generalizing s with
  | nil => rfl
  | cons i is ih =>
    rw [List.foldl_cons, ih]
    by_cases hd : d = i
    · rw [exec_phi (hd ▸ h)]
    · exact exec_env_of_ne hd

theorem touches_of_body (hl : v.block ∈ f.layout) (hbody : f.body v.block = pre ++ i :: post)
    (hop : f.op? i = some op) {addr : Value} (ha : op.address? = some addr) :
    f.Touches args v i (addr.eval args (f.upTo args v pre).env) :=
  ⟨hl, pre, post, op, addr, hbody, hop, ha, rfl⟩

theorem Touches.access (h : f.Touches args v i a) : i ∈ f.body v.block ∧ f.accessesMemory i := by
  obtain ⟨-, pre, post, op, addr, hbody, hop, ha, -⟩ := h
  refine ⟨by simp [hbody], ?_⟩
  rw [accessesMemory, hop, Option.any_some]
  cases op <;> first | rfl | cases ha

theorem upTo_mem_of_not_writes (hl : v.block ∈ f.layout) (h : ¬ f.Writes args v a) :
    ∀ pre post, f.body v.block = pre ++ post → (f.upTo args v pre).mem a = v.store.mem a := by
  refine prefix_induction rfl fun pre i post hbody ih => ?_
  rw [upTo_snoc]
  by_cases hw : f.writesMemory i
  · obtain ⟨op, hop, hst⟩ := (Option.any_eq_true ..).1 hw
    cases op with
    | store addr x =>
      have hne : a ≠ addr.eval args (f.upTo args v pre).env := by
        rintro rfl
        exact h ⟨i, hw, touches_of_body hl hbody hop rfl⟩
      rw [exec_store hop]
      exact (Function.update_of_ne hne _ _).trans ih
    | _ => cases hst
  · rw [exec_mem_of_not_writes hw, ih]

theorem leave_mem_of_not_writes (hl : v.block ∈ f.layout) (h : ¬ f.Writes args v a) :
    (f.leave args v).mem a = v.store.mem a :=
  upTo_mem_of_not_writes hl h _ [] (List.append_nil _).symm

theorem next?_eq_some : f.next? args v = some w ↔ v.block ∈ f.layout ∧
    (∃ op, f.exitOp? v.block = some op ∧
      op.target? (Value.eval args (f.leave args v).env) = some w.block) ∧
    w.source? = some v.block ∧ w.store = f.leave args v := by
  obtain ⟨p, b, s⟩ := w
  rw [next?]
  split
  case isTrue h =>
    simp only [Option.map_eq_some_iff, Option.bind_eq_some_iff, Visit.mk.injEq, h, true_and]
    constructor
    · rintro ⟨t, hop, rfl, rfl, rfl⟩
      exact ⟨hop, rfl, rfl⟩
    · rintro ⟨hop, rfl, rfl⟩
      exact ⟨b, hop, rfl, rfl, rfl⟩
  case isFalse h => simp [h]

theorem Reaches.begin {mem : Memory} (h : f.begin? mem = some v) : f.Reaches args mem v :=
  ⟨⟨fun _ => v, 0, h, fun _ hn => absurd hn (Nat.not_lt_zero _)⟩, rfl⟩

theorem Reaches.next {mem : Memory} (h : f.Reaches args mem v) (hv : f.next? args v = some w) :
    f.Reaches args mem w := by
  obtain ⟨r, rfl⟩ := h
  refine ⟨⟨fun n => if n ≤ r.last then r.visit n else w, r.last + 1, ?_, fun n hn => ?_⟩, ?_⟩
  · rw [if_pos (Nat.zero_le _)]
    exact r.start
  · rw [if_pos (Nat.le_of_lt_succ hn)]
    by_cases hlt : n + 1 ≤ r.last
    · rw [if_pos hlt]
      exact r.step n hlt
    · obtain rfl : n = r.last := by omega
      rw [if_neg (by omega)]
      exact hv
  · exact if_neg (Nat.not_succ_le_self _)

/-! A run is determined by its input. -/

section Trace

variable {mem : Memory} {x y : Option Int} {m m' : Memory} {n k : Nat}

/-- The visit after `n` steps, if the run gets that far. -/
def visitAt? (f : Func) (args : List Int) (mem : Memory) : Nat → Option Visit
  | 0 => f.begin? mem
  | n + 1 => (visitAt? f args mem n).bind (f.next? args)

theorem Run.visitAt?_eq (r : f.Run args mem) (h : n ≤ r.last) :
    f.visitAt? args mem n = some (r.visit n) := by
  induction n with
  | zero => exact r.start
  | succ n ih => rw [visitAt?, ih (by omega), Option.bind_some, r.step n h]

theorem exists_run (h : f.visitAt? args mem n = some v) :
    ∃ r : f.Run args mem, r.last = n ∧ r.visit n = v := by
  have hsome : ∀ k ≤ n, (f.visitAt? args mem k).isSome := by
    intro k hk
    induction n, hk using Nat.le_induction generalizing v with
    | base => rw [h, Option.isSome_some]
    | succ n hk ih =>
      obtain ⟨w, hw, -⟩ := Option.bind_eq_some_iff.1 h
      exact ih hw
  have hget : ∀ k ≤ n, f.visitAt? args mem k = some ((f.visitAt? args mem k).getD v) := by
    intro k hk
    obtain ⟨w, hw⟩ := Option.isSome_iff_exists.1 (hsome k hk)
    rw [hw, Option.getD_some]
  refine ⟨⟨fun k => (f.visitAt? args mem k).getD v, n, hget 0 (Nat.zero_le n), fun k hk => ?_⟩,
    rfl, ?_⟩
  · rw [← hget (k + 1) hk, visitAt?, hget k hk.le, Option.bind_some, Option.getD_some]
  · change (f.visitAt? args mem n).getD v = v
    rw [h, Option.getD_some]

theorem yields_iff : f.Yields args mem x m ↔
    ∃ n v, f.visitAt? args mem n = some v ∧ f.result? args v = some (x, m) := by
  constructor
  · rintro ⟨v, ⟨r, rfl⟩, h⟩
    exact ⟨r.last, _, r.visitAt?_eq le_rfl, h⟩
  · rintro ⟨n, v, hv, h⟩
    obtain ⟨r, rfl, rfl⟩ := exists_run hv
    exact ⟨_, ⟨r, rfl⟩, h⟩

theorem exists_yields {P : Option Int × Memory → Bool}
    (h : ((f.visitAt? args mem n).bind (f.result? args)).any P) :
    ∃ y, f.Yields args mem y.1 y.2 ∧ P y := by
  obtain ⟨y, hy, hP⟩ := (Option.any_eq_true ..).1 h
  obtain ⟨v, hv, hres⟩ := Option.bind_eq_some_iff.1 hy
  exact ⟨y, yields_iff.2 ⟨n, v, hv, hres⟩, hP⟩

theorem next?_of_result? (h : f.result? args v = some (x, m)) : f.next? args v = none := by
  rw [result?] at h
  rw [next?]
  split at h
  · rw [if_pos ‹_›]
    split at h
    case h_1 hop => rw [hop]; rfl
    case h_2 => cases h
  · cases h

theorem visitAt?_eq_none (h : f.visitAt? args mem n = some v)
    (hres : f.result? args v = some (x, m)) (hk : n < k) : f.visitAt? args mem k = none := by
  induction k, hk using Nat.le_induction with
  | base => rw [visitAt?, h, Option.bind_some, next?_of_result? hres]
  | succ k _ ih => rw [visitAt?, ih, Option.bind_none]

theorem Yields.unique (h : f.Yields args mem x m) (h' : f.Yields args mem y m') :
    x = y ∧ m = m' := by
  obtain ⟨n, v, hv, hres⟩ := yields_iff.1 h
  obtain ⟨k, w, hw, hres'⟩ := yields_iff.1 h'
  rcases Nat.lt_trichotomy n k with hlt | rfl | hgt
  · rw [visitAt?_eq_none hv hres hlt] at hw
    cases hw
  · obtain rfl := Option.some.inj (hv.symm.trans hw)
    exact Prod.mk.inj (Option.some.inj (hres.symm.trans hres'))
  · rw [visitAt?_eq_none hw hres' hgt] at hv
    cases hv

end Trace

end Func

end LoopFusion
