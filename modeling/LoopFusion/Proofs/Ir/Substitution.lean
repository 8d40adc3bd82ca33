import LoopFusion.Proofs.Ir.Consistent
import Mathlib.Algebra.BigOperators.Group.Finset.Sigma
import Mathlib.Data.Set.Card

/-!
One value in place of another. The slots of a function are the operands of its live instructions:
those that held the old value hold the new one afterwards, and all else is as it was. The layout
may lead to a slot more than once, but a slot is counted when it is rewritten, and after that the
old value is gone.
-/

namespace LoopFusion

namespace Operation

/-- What an operation says beside its operands. -/
inductive Skeleton
  | phi (labels : List BlockId)
  | binary (op : BinaryOp)
  | compare (cmp : Comparison)
  | gep
  | load
  | store
  | br (target : BlockId)
  | condBr (thenDest elseDest : BlockId)
  | ret
deriving DecidableEq

def skeleton : Operation → Skeleton
  | phi incoming => .phi (incoming.map (·.1))
  | binary op _ _ => .binary op
  | compare cmp _ _ => .compare cmp
  | gep _ _ => .gep
  | load _ => .load
  | store _ _ => .store
  | br target => .br target
  | condBr _ thenDest elseDest => .condBr thenDest elseDest
  | ret _ => .ret

theorem skeleton_mapOperands (g : Value → Value) (op : Operation) :
    (op.mapOperands g).skeleton = op.skeleton := by
  cases op with
  | phi incoming => simp [mapOperands, skeleton]
  | _ => rfl

theorem eq_of_skeleton {op op' : Operation} (hs : op.skeleton = op'.skeleton)
    (ho : op.operands = op'.operands) : op = op' := by
  cases op <;> cases op' <;> simp_all [skeleton, operands]
  case phi.phi => exact (List.zip_of_prod hs ho).trans (List.zip_of_prod rfl rfl).symm
  case ret.ret v v' => cases v <;> cases v' <;> simp_all

/-- Visit the operands one after the other, and leave in their places what `visit` answers. -/
def visitOperands {m : Type → Type} [Monad m] (visit : Value → m Value) :
    Operation → m Operation
  | phi incoming => return phi (← incoming.mapM fun x => return (x.1, ← visit x.2))
  | binary op l r => return binary op (← visit l) (← visit r)
  | compare cmp l r => return compare cmp (← visit l) (← visit r)
  | gep b o => return gep (← visit b) (← visit o)
  | load a => return load (← visit a)
  | store a v => return store (← visit a) (← visit v)
  | br target => return br target
  | condBr c t e => return condBr (← visit c) t e
  | ret none => return ret none
  | ret (some v) => return ret (some (← visit v))

end Operation

/-- A computation that counts as it goes. -/
abbrev Counting := StateM Nat

namespace Counting

variable {α β : Type}

theorem run_pure (a : α) (n : Nat) : (pure a : Counting α).run n = (a, n) := rfl

theorem run_bind (x : Counting α) (k : α → Counting β) (n : Nat) :
    (x >>= k).run n = (k (x.run n).1).run (x.run n).2 := rfl

end Counting

/-- Give `new` for `old`, and count it. -/
def exchange (old new v : Value) : Counting Value :=
  if v = old then modifyGet fun n => (new, n + 1) else return v

variable {old new : Value}

theorem run_exchange (v : Value) (n : Nat) :
    (exchange old new v).run n = (replace old new v, n + if v = old then 1 else 0) := by
  rw [exchange, replace]
  split <;> rfl

namespace Operation

theorem run_visitIncoming (incoming : List (BlockId × Value)) (n : Nat) :
    (incoming.mapM fun x =>
        (return (x.1, ← exchange old new x.2) : Counting (BlockId × Value))).run n =
      (incoming.map fun (b, v) => (b, replace old new v), n + (incoming.map (·.2)).count old) := by
  induction incoming generalizing n with
  | nil => rfl
  | cons x incoming ih =>
    rw [List.mapM_cons, Counting.run_bind, Counting.run_bind, ih]
    simp only [Counting.run_bind, Counting.run_pure, run_exchange, List.map_cons, List.count_cons,
      beq_iff_eq, Nat.add_assoc, Nat.add_comm]

/-- The operands that are visited are those that are listed, each once. -/
theorem run_visitOperands (op : Operation) (n : Nat) : (op.visitOperands (exchange old new)).run n =
    (op.mapOperands (replace old new), n + op.operands.count old) := by
  cases op with
  | phi incoming =>
    rw [visitOperands, Counting.run_bind, run_visitIncoming]
    rfl
  | ret v =>
    cases v with
    | none => rfl
    | some v =>
      simp only [visitOperands, Counting.run_bind, Counting.run_pure, run_exchange]
      simp [operands, mapOperands, List.count_cons]
  | _ =>
    simp only [visitOperands, Counting.run_bind, Counting.run_pure, run_exchange]
    simp [operands, mapOperands, List.count_cons, Nat.add_comm, Nat.add_left_comm]

end Operation

theorem mem_map_replace (l : List Value) : new ∈ l.map (replace old new) ↔ old ∈ l ∨ new ∈ l := by
  simp only [List.mem_map, replace]
  constructor
  · rintro ⟨v, hv, he⟩
    split at he
    case isTrue h => exact .inl (h ▸ hv)
    case isFalse => exact .inr (he ▸ hv)
  · rintro (h | h)
    · exact ⟨old, h, if_pos rfl⟩
    · exact ⟨new, h, ite_self _⟩

theorem not_mem_map_replace (hne : old ≠ new) (l : List Value) : old ∉ l.map (replace old new) := by
  intro h
  obtain ⟨v, -, hv⟩ := List.mem_map.1 h
  rw [replace] at hv
  split at hv
  case isTrue => exact hne hv.symm
  case isFalse h => exact h hv

/-- `y` is `x` with `new` for `old` among its operands. -/
structure Inst.Substituted (old new : Value) (x y : Inst) : Prop where
  operands : y.op.operands = x.op.operands.map (replace old new)
  skeleton : y.op.skeleton = x.op.skeleton
  block : y.block = x.block
  name : y.name = x.name

theorem Inst.substituted_iff {x y : Inst} : x.Substituted old new y ↔
    y = { x with op := x.op.mapOperands (replace old new) } := by
  constructor
  · rintro ⟨hoperands, hskeleton, hblock, hname⟩
    have hop : y.op = x.op.mapOperands (replace old new) := by
      apply Operation.eq_of_skeleton
      · rw [hskeleton, Operation.skeleton_mapOperands]
      · rw [hoperands, Operation.operands_mapOperands]
    rw [← hop, ← hblock, ← hname]
  · rintro rfl
    exact ⟨Operation.operands_mapOperands _ _, Operation.skeleton_mapOperands _ _, rfl, rfl⟩

namespace Func

variable {f f' : Func} {b : BlockId} {i : InstId}

/-- The places where live instructions read `v`: the instruction, and the number of the operand. -/
def slots (f : Func) (v : Value) : Set (InstId × Nat) :=
  {s | s.1 ∈ f.liveInsts ∧ (f.operands s.1)[s.2]? = some v}

/-- `f'` is `f` with `new` for `old` among the operands of the live instructions. -/
structure Substituted (old new : Value) (f f' : Func) : Prop where
  name : f'.name = f.name
  params : f'.params = f.params
  blocks : f'.blocks = f.blocks
  layout : f'.layout = f.layout
  size : f'.insts.size = f.insts.size
  live : ∀ i ∈ f.liveInsts, ∀ x, f.inst? i = some x →
    ∃ y, f'.inst? i = some y ∧ x.Substituted old new y
  rest : ∀ i, i ∉ f.liveInsts → f'.inst? i = f.inst? i

/-! The edit in place. -/

/-- Visit the operands of an instruction, and go on with the count. -/
def exchangeIn (old new : Value) (s : Nat × Func) (i : InstId) : Nat × Func :=
  match s.2.op? i with
  | some op =>
    let (op, n) := (op.visitOperands (exchange old new)).run s.1
    (n, s.2.modifyOp i fun _ => op)
  | none => s

/-- Go through the layout, and through the instructions that each block lists by then. -/
def exchangeInPlace (f : Func) (old new : Value) : Nat × Func :=
  f.layout.foldl (fun s b => (s.2.body b).foldl (exchangeIn old new) s) (0, f)

theorem modifyOp_congr {k l : Operation → Operation}
    (h : ∀ op, f.op? i = some op → k op = l op) : f.modifyOp i k = f.modifyOp i l := by
  have hinsts : f.insts.modify i.index (fun x => { x with op := k x.op }) =
      f.insts.modify i.index (fun x => { x with op := l x.op }) := by
    apply Array.ext_getElem?
    intro n
    rw [Array.getElem?_modify, Array.getElem?_modify]
    split
    case isTrue hn =>
      cases hx : f.insts[n]? with
      | none => rfl
      | some x =>
        have hop : f.op? i = some x.op := by rw [op?, inst?, hn, hx, Option.map_some]
        rw [Option.map_some, Option.map_some, h x.op hop]
    case isFalse => rfl
  rw [modifyOp, modifyOp, modifyInst, modifyInst, hinsts]

theorem modifyOp_id (f : Func) (i : InstId) : f.modifyOp i id = f := by
  have hinsts : f.insts.modify i.index (fun x => { x with op := id x.op }) = f.insts := by
    apply Array.ext_getElem?
    intro n
    rw [Array.getElem?_modify]
    split
    · exact Option.map_id_apply
    · rfl
  rw [modifyOp, modifyInst, hinsts]

theorem operands_modifyOp (f : Func) (i j : InstId) (g : Value → Value) :
    (f.modifyOp i (.mapOperands g)).operands j =
      if j = i then (f.operands j).map g else f.operands j := by
  rw [operands, operands, op?_modifyOp]
  split
  · cases f.op? j with
    | none => rfl
    | some op => exact op.operands_mapOperands g
  · rfl

/-- One instruction's share of the edit. -/
def replaceUsesStep (old new : Value) (s : Nat × Func) (i : InstId) : Nat × Func :=
  (s.1 + (s.2.operands i).count old, s.2.modifyOp i (.mapOperands (replace old new)))

theorem replaceAllUses_eq (f : Func) (old new : Value) :
    f.replaceAllUses old new = f.liveInsts.foldl (replaceUsesStep old new) (0, f) := rfl

theorem exchangeIn_eq (s : Nat × Func) (i : InstId) :
    exchangeIn old new s i = replaceUsesStep old new s i := by
  rw [exchangeIn, replaceUsesStep, operands]
  cases hop : s.2.op? i with
  | none =>
    have hsame : s.2.modifyOp i (.mapOperands (replace old new)) = s.2 :=
      (modifyOp_congr fun op h => by simp [hop] at h).trans (modifyOp_id s.2 i)
    rw [hsame]
    rfl
  | some op =>
    have hsame : s.2.modifyOp i (fun _ => op.mapOperands (replace old new)) =
        s.2.modifyOp i (.mapOperands (replace old new)) :=
      modifyOp_congr fun op' h => by rw [Option.some.inj (hop.symm.trans h)]
    simp only [Operation.run_visitOperands, hsame]
    rfl

theorem alike_replaceUses (is : List InstId) (s : Nat × Func) :
    Alike s.2 (is.foldl (replaceUsesStep old new) s).2 := by
  rw [foldl_snd (g := fun f i => f.modifyOp i (.mapOperands (replace old new))) fun _ _ => rfl]
  exact alike_modifyOps s.2 is _ fun op => by simp

theorem exchangeInPlace_eq (f : Func) (old new : Value) :
    f.exchangeInPlace old new = f.replaceAllUses old new := by
  have hstep : exchangeIn old new = replaceUsesStep old new := funext₂ exchangeIn_eq
  have hblocks : ∀ (bs : List BlockId) (s : Nat × Func), Alike f s.2 →
      bs.foldl (fun s b => (s.2.body b).foldl (replaceUsesStep old new) s) s =
        (bs.flatMap f.body).foldl (replaceUsesStep old new) s := by
    intro bs
    induction bs with
    | nil => exact fun _ _ => rfl
    | cons b bs ih =>
      intro s h
      rw [List.foldl_cons, List.flatMap_cons, List.foldl_append, h.body]
      exact ih _ (h.trans (alike_replaceUses _ s))
  rw [exchangeInPlace, hstep, hblocks _ _ (.refl f), replaceAllUses_eq, liveInsts]

/-! The count. -/

theorem card_places (l : List Value) (v : Value) :
    ({k ∈ Finset.range l.length | l[k]? = some v}).card = l.count v := by
  induction l with
  | nil => rfl
  | cons w l ih =>
    rw [Finset.card_filter] at ih ⊢
    rw [List.length_cons, Finset.sum_range_succ', List.count_cons, ← ih]
    simp

theorem ncard_slots (f : Func) (v : Value) :
    (f.slots v).ncard = ∑ i ∈ f.liveInsts.toFinset, (f.operands i).count v := by
  let places := f.liveInsts.toFinset.sigma fun i =>
    {k ∈ Finset.range (f.operands i).length | (f.operands i)[k]? = some v}
  have hslots : f.slots v = Equiv.sigmaEquivProd InstId Nat '' places := by
    ext ⟨i, k⟩
    simp [slots, places, List.getElem?_eq_some_iff]
  rw [hslots, Set.ncard_image_of_injective _ (Equiv.injective _), Set.ncard_coe_finset,
    Finset.card_sigma]
  exact Finset.sum_congr rfl fun i _ => card_places _ v

theorem count_replaceUses (hne : old ≠ new) (is : List InstId) (s : Nat × Func) :
    (is.foldl (replaceUsesStep old new) s).1 =
      s.1 + ∑ i ∈ is.toFinset, (s.2.operands i).count old := by
  induction is generalizing s with
  | nil => rfl
  | cons j is ih =>
    have hthen : ∀ i, ((replaceUsesStep old new s j).2.operands i).count old =
        if i = j then 0 else (s.2.operands i).count old := by
      intro i
      rw [replaceUsesStep, operands_modifyOp]
      split
      · exact List.count_eq_zero.2 (not_mem_map_replace hne _)
      · rfl
    -- what is counted at `j` is gone if the rest of the list leads to `j` again
    have hrest : ∑ i ∈ is.toFinset, ((replaceUsesStep old new s j).2.operands i).count old =
        ∑ i ∈ is.toFinset.erase j, (s.2.operands i).count old := by
      have hgone := (hthen j).trans (if_pos rfl)
      refine (Finset.sum_erase is.toFinset hgone).symm.trans (Finset.sum_congr rfl fun i hi => ?_)
      exact (hthen i).trans (if_neg (Finset.ne_of_mem_erase hi))
    rw [List.foldl_cons, ih, hrest, List.toFinset_cons,
      ← Finset.add_sum_erase _ _ (Finset.mem_insert_self j is.toFinset),
      Finset.erase_insert_eq_erase, replaceUsesStep, Nat.add_assoc]

theorem count_replaceAllUses (hne : old ≠ new) (f : Func) :
    (f.replaceAllUses old new).1 = (f.slots old).ncard := by
  rw [replaceAllUses_eq, count_replaceUses hne, ncard_slots, Nat.zero_add]

/-! What is left. -/

theorem Alike.inst? {k : Operation → Operation} (h : Alike f f')
    (hop : f'.op? i = (f.op? i).map k) :
    f'.inst? i = (f.inst? i).map fun x => { x with op := k x.op } := by
  have howner := h.owner i
  have hlabel := h.label i
  rw [op?, op?] at hop
  rw [owner?, owner?] at howner
  cases hx : f.inst? i with
  | none =>
    rw [hx] at hop
    simpa using hop
  | some x =>
    rw [hx] at hop howner hlabel
    obtain ⟨⟨op, block, name⟩, hy, rfl⟩ := Option.map_eq_some_iff.1 hop
    rw [hy] at howner hlabel ⊢
    simp_all

theorem inst?_replaceAllUses (f : Func) (old new : Value) (i : InstId) :
    (f.replaceAllUses old new).2.inst? i = if i ∈ f.liveInsts then
      (f.inst? i).map fun x => { x with op := x.op.mapOperands (replace old new) }
    else f.inst? i := by
  have h := alike_replaceAllUses f old new
  have hop := op?_replaceAllUses f old new i
  split at hop
  case isTrue hi => rw [if_pos hi, h.inst? hop]
  case isFalse hi =>
    rw [← Option.map_id_apply (x := f.op? i)] at hop
    rw [if_neg hi, h.inst? hop]
    exact Option.map_id_apply

theorem operands_replaceAllUses (old new : Value) (hi : i ∈ f.liveInsts) :
    (f.replaceAllUses old new).2.operands i = (f.operands i).map (replace old new) := by
  rw [operands, op?_replaceAllUses, if_pos hi, operands]
  cases f.op? i with
  | none => rfl
  | some op => exact op.operands_mapOperands _

theorem substituted_replaceAllUses (f : Func) (old new : Value) :
    f.Substituted old new (f.replaceAllUses old new).2 := by
  have h := alike_replaceAllUses f old new
  refine ⟨h.name, h.params, h.blocks, h.layout, h.size, fun i hi x hx => ?_, fun i hi => ?_⟩
  · refine ⟨_, ?_, Inst.substituted_iff.2 rfl⟩
    rw [inst?_replaceAllUses, if_pos hi, hx, Option.map_some]
  · rw [inst?_replaceAllUses, if_neg hi]

namespace Substituted

variable (h : f.Substituted old new f')

include h

theorem inst? (i : InstId) : f'.inst? i = (f.replaceAllUses old new).2.inst? i := by
  rw [inst?_replaceAllUses]
  split
  case isTrue hi =>
    cases hx : f.inst? i with
    | none =>
      rw [Func.inst?, Array.getElem?_eq_none_iff, ← h.size] at hx
      exact Array.getElem?_eq_none hx
    | some x =>
      obtain ⟨y, hy, hxy⟩ := h.live i hi x hx
      rw [hy, Inst.substituted_iff.1 hxy, Option.map_some]
  case isFalse hi => exact h.rest i hi

theorem eq : f' = (f.replaceAllUses old new).2 := by
  have h' := substituted_replaceAllUses f old new
  rw [Func.mk.injEq]
  exact ⟨h.name.trans h'.name.symm, h.params.trans h'.params.symm, h.blocks.trans h'.blocks.symm,
    Array.ext_getElem? fun n => h.inst? ⟨n⟩, h.layout.trans h'.layout.symm⟩

end Substituted

theorem users_old_replaceAllUses (hne : old ≠ new) (f : Func) :
    (f.replaceAllUses old new).2.users old = [] := by
  rw [users, (alike_replaceAllUses f old new).liveInsts, List.filter_eq_nil_iff]
  intro i hi
  rw [operands_replaceAllUses old new hi, List.contains_iff_mem]
  exact not_mem_map_replace hne _

theorem users_new_replaceAllUses (f : Func) (old new : Value) :
    (f.replaceAllUses old new).2.users new =
      f.liveInsts.filter fun i => i ∈ f.users old ∨ i ∈ f.users new := by
  rw [users, (alike_replaceAllUses f old new).liveInsts]
  apply List.filter_congr
  intro i hi
  rw [operands_replaceAllUses old new hi, Bool.eq_iff_iff, List.contains_iff_mem, mem_map_replace,
    decide_eq_true_iff, users, users]
  simp [hi]

theorem Consistent.not_mem_liveInsts (h : f.Consistent) (hb : ¬ f.contains b) (hi : i ∈ f.body b) :
    i ∉ f.liveInsts := by
  rw [liveInsts, List.mem_flatMap]
  rintro ⟨c, hc, hic⟩
  obtain rfl := Option.some.inj (((h.owned b i).1 hi).symm.trans ((h.owned c i).1 hic))
  exact hb ((h.live b).1 hc)

/-- To replace all uses of a value is to write another into its slots, and nothing else: the slots
are counted, whoever used the one value uses the other, and retired blocks stay as they are. -/
theorem replaceAllUses_exact (hne : old ≠ new) {n : Nat}
    (hrun : f.replaceAllUses old new = (n, f')) :
    f.exchangeInPlace old new = (n, f') ∧
      (∀ g, f.Substituted old new g ↔ g = f') ∧
      f'.users old = [] ∧
      f'.users new = f.liveInsts.filter (fun i => i ∈ f.users old ∨ i ∈ f.users new) ∧
      n = (f.slots old).ncard ∧
      (f.Consistent → ∀ b, ¬ f.contains b → ∀ i ∈ f.body b, f'.inst? i = f.inst? i) := by
  obtain rfl : (f.replaceAllUses old new).1 = n := congrArg Prod.fst hrun
  obtain rfl : (f.replaceAllUses old new).2 = f' := congrArg Prod.snd hrun
  have hsubst := substituted_replaceAllUses f old new
  refine ⟨exchangeInPlace_eq f old new, fun g => ⟨Substituted.eq, fun hg => hg ▸ hsubst⟩,
    users_old_replaceAllUses hne f, users_new_replaceAllUses f old new,
    count_replaceAllUses hne f, fun hf b hb i hi => ?_⟩
  exact hsubst.rest i (hf.not_mem_liveInsts hb hi)

/-- The second instruction is read twice by one store, by a branch, by a phi and in a block that is
retired then. -/
def readings : List Edit :=
  [.addBlock "entry", .addBlock "join", .addBlock "gone",
    .appendInst ⟨0⟩ (.gep (.param 0) (.const 1)) none,
    .appendInst ⟨0⟩ (.gep (.param 0) (.const 2)) none,
    .appendInst ⟨0⟩ (.store (.inst ⟨1⟩) (.inst ⟨1⟩)) none,
    .appendInst ⟨0⟩ (.condBr (.inst ⟨1⟩) ⟨1⟩ ⟨1⟩) none,
    .appendInst ⟨1⟩ (.phi [(⟨0⟩, .inst ⟨1⟩), (⟨2⟩, .inst ⟨0⟩)]) (some "x"),
    .appendInst ⟨1⟩ (.ret (some (.inst ⟨0⟩))) none,
    .appendInst ⟨2⟩ (.store (.inst ⟨0⟩) (.inst ⟨1⟩)) none,
    .appendInst ⟨2⟩ (.br ⟨1⟩) none,
    .removeBlock ⟨2⟩]

/-- What `readings` lead to. -/
def reader : Func := (Edit.run (.empty "f" [⟨"p", .ptr⟩]) readings).2

theorem consistent_reader : reader.Consistent := by
  have hfit : Edit.AllFit (.empty "f" [⟨"p", .ptr⟩]) readings := by decide +kernel
  exact hfit.makes.consistent (Edit.consistent_empty _ _)

theorem replaceAllUses_exact_reader : Value.inst ⟨1⟩ ≠ .inst ⟨0⟩ ∧
    ∃ f', reader.replaceAllUses (.inst ⟨1⟩) (.inst ⟨0⟩) = (4, f') ∧
      f'.operands ⟨4⟩ = [.inst ⟨0⟩, .inst ⟨0⟩] ∧
      f'.users (.inst ⟨1⟩) = [] ∧
      f'.users (.inst ⟨0⟩) = [⟨2⟩, ⟨3⟩, ⟨4⟩, ⟨5⟩] ∧
      (reader.slots (.inst ⟨1⟩)).ncard = 4 ∧
      f'.op? ⟨6⟩ = some (.store (.inst ⟨0⟩) (.inst ⟨1⟩)) := by
  have hne : Value.inst ⟨1⟩ ≠ .inst ⟨0⟩ := by decide
  have hrun : reader.replaceAllUses (.inst ⟨1⟩) (.inst ⟨0⟩) =
      (4, (reader.replaceAllUses (.inst ⟨1⟩) (.inst ⟨0⟩)).2) := by
    apply Prod.ext _ rfl
    decide +kernel
  obtain ⟨-, -, hold, hnew, hcount, hretired⟩ := replaceAllUses_exact hne hrun
  refine ⟨hne, _, hrun, ?_, hold, hnew.trans ?_, hcount.symm, ?_⟩
  · decide +kernel
  · decide +kernel
  · have hgone : ¬ reader.contains ⟨2⟩ := by decide +kernel
    have hin : ⟨6⟩ ∈ reader.body ⟨2⟩ := by decide +kernel
    rw [op?, hretired consistent_reader ⟨2⟩ hgone ⟨6⟩ hin]
    decide +kernel

end Func

end LoopFusion
