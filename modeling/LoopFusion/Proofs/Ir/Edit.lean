import LoopFusion.Ir.Edit
import Mathlib.Data.List.Nodup
import Mathlib.Tactic.Tauto

/-!
What the edits of a function change. Most of them only touch operations, and none of those turns a
phi or a terminator into something else, so the blocks read the same afterwards.
-/

namespace LoopFusion

namespace Operation

@[simp] theorem isTerminator_mapOperands (g : Value → Value) (op : Operation) :
    (op.mapOperands g).isTerminator = op.isTerminator := by cases op <;> rfl

@[simp] theorem isPhi_mapOperands (g : Value → Value) (op : Operation) :
    (op.mapOperands g).isPhi = op.isPhi := by cases op <;> rfl

@[simp] theorem writesMemory_mapOperands (g : Value → Value) (op : Operation) :
    (op.mapOperands g).writesMemory = op.writesMemory := by cases op <;> rfl

@[simp] theorem isTerminator_mapTargets (g : BlockId → BlockId) (op : Operation) :
    (op.mapTargets g).isTerminator = op.isTerminator := by cases op <;> rfl

@[simp] theorem isPhi_mapTargets (g : BlockId → BlockId) (op : Operation) :
    (op.mapTargets g).isPhi = op.isPhi := by cases op <;> rfl

@[simp] theorem writesMemory_mapTargets (g : BlockId → BlockId) (op : Operation) :
    (op.mapTargets g).writesMemory = op.writesMemory := by cases op <;> rfl

@[simp] theorem isTerminator_mapIncoming (g) (op : Operation) :
    (op.mapIncoming g).isTerminator = op.isTerminator := by cases op <;> rfl

@[simp] theorem isPhi_mapIncoming (g) (op : Operation) :
    (op.mapIncoming g).isPhi = op.isPhi := by cases op <;> rfl

@[simp] theorem writesMemory_mapIncoming (g) (op : Operation) :
    (op.mapIncoming g).writesMemory = op.writesMemory := by cases op <;> rfl

@[simp] theorem mapTargets_id (op : Operation) : op.mapTargets id = op := by cases op <;> rfl

@[simp] theorem mapIncoming_id (op : Operation) : op.mapIncoming id = op := by cases op <;> rfl

theorem mapTargets_of_not_terminator (g : BlockId → BlockId) {op : Operation}
    (h : ¬ op.isTerminator) : op.mapTargets g = op := by
  cases op <;> first | rfl | exact absurd rfl h

theorem mapIncoming_of_not_phi (g) {op : Operation} (h : ¬ op.isPhi) :
    op.mapIncoming g = op := by
  cases op <;> first | rfl | exact absurd rfl h

theorem not_isPhi_of_isTerminator {op : Operation} (h : op.isTerminator) : ¬ op.isPhi := by
  cases op <;> simp_all [isTerminator, isPhi]

theorem mapTargets_mapTargets (g h : BlockId → BlockId) (op : Operation) :
    (op.mapTargets g).mapTargets h = op.mapTargets (h ∘ g) := by cases op <;> rfl

theorem mapIncoming_mapIncoming (g h) (op : Operation) :
    (op.mapIncoming g).mapIncoming h = op.mapIncoming (h ∘ g) := by cases op <;> rfl

theorem mapTargets_mapIncoming (g h) (op : Operation) :
    (op.mapIncoming g).mapTargets h = (op.mapTargets h).mapIncoming g := by cases op <;> rfl

theorem ite_mapTargets {c : Prop} [Decidable c] {op : Operation} {t : Bool}
    (ht : op.isTerminator = t) (g : BlockId → BlockId) :
    (if c ∧ t then op.mapTargets g else op) = op.mapTargets (if c then g else id) := by
  subst t
  by_cases hc : c
  · by_cases ht : op.isTerminator
    · rw [if_pos ⟨hc, ht⟩, if_pos hc]
    · rw [if_neg fun h => ht h.2, if_pos hc, mapTargets_of_not_terminator _ ht]
  · rw [if_neg fun h => hc h.1, if_neg hc, mapTargets_id]

theorem ite_mapIncoming {c : Prop} [Decidable c] {op : Operation} {t : Bool}
    (ht : op.isPhi = t) (g) :
    (if c ∧ t then op.mapIncoming g else op) = op.mapIncoming (if c then g else id) := by
  subst t
  by_cases hc : c
  · by_cases ht : op.isPhi
    · rw [if_pos ⟨hc, ht⟩, if_pos hc]
    · rw [if_neg fun h => ht h.2, if_pos hc, mapIncoming_of_not_phi _ ht]
  · rw [if_neg fun h => hc h.1, if_neg hc, mapIncoming_id]

theorem mapOperands_mapOperands (g h : Value → Value) (op : Operation) :
    (op.mapOperands g).mapOperands h = op.mapOperands (h ∘ g) := by
  cases op with
  | ret v => cases v <;> rfl
  | _ => simp [mapOperands]

theorem mapOperands_congr {g h : Value → Value} {op : Operation}
    (hgh : ∀ v ∈ op.operands, g v = h v) : op.mapOperands g = op.mapOperands h := by
  cases op with
  | phi incoming =>
    exact congrArg phi (List.map_congr_left fun x hx =>
      congrArg (x.1, ·) (hgh x.2 (List.mem_map_of_mem hx)))
  | ret v =>
    cases v with
    | none => rfl
    | some v => simp [mapOperands, hgh v (by simp [operands])]
  | _ => simp_all [mapOperands, operands]

@[simp] theorem mapOperands_id (op : Operation) : op.mapOperands id = op := by
  cases op with
  | ret v => cases v <;> rfl
  | _ => simp [mapOperands]

end Operation

theorem replace_self {α : Type} [DecidableEq α] (old x : α) : replace old old x = x := by
  rw [replace]
  split
  · exact Eq.symm ‹_›
  · rfl

theorem replace_replace {α : Type} [DecidableEq α] (old new x : α) :
    replace old new (replace old new x) = replace old new x := by
  unfold replace
  split <;> simp_all

namespace Func

variable {f f' f'' : Func} {b : BlockId} {i j : InstId}

/-- `f'` is `f` with other operations. -/
structure Reworked (f f' : Func) : Prop where
  name : f'.name = f.name
  params : f'.params = f.params
  blocks : f'.blocks = f.blocks
  layout : f'.layout = f.layout
  size : f'.insts.size = f.insts.size
  owner : ∀ i, f'.owner? i = f.owner? i
  label : ∀ i, (f'.inst? i).map (·.name) = (f.inst? i).map (·.name)

namespace Reworked

theorem refl (f : Func) : Reworked f f := by constructor <;> intros <;> rfl

variable (h : Reworked f f')

include h

theorem body (b : BlockId) : f'.body b = f.body b := by
  rw [Func.body, Func.body, block?, block?, h.blocks]

theorem contains (b : BlockId) : f'.contains b = f.contains b := by
  rw [Func.contains, Func.contains, block?, block?, h.blocks]

end Reworked

theorem reworked_modifyOp (f : Func) (i : InstId) (g : Operation → Operation) :
    Reworked f (f.modifyOp i g) := by
  have hkeep : ∀ {β : Type} (k : Inst → β), (∀ inst op, k { inst with op := op } = k inst) →
      ∀ j, ((f.modifyOp i g).inst? j).map k = (f.inst? j).map k := by
    intro β k hk j
    simp only [inst?, modifyOp, modifyInst, Array.getElem?_modify]
    split
    · rw [Option.map_map]
      congr 1
      exact funext fun inst => hk inst _
    · rfl
  constructor
  · rfl
  · rfl
  · rfl
  · rfl
  · exact Array.size_modify ..
  · exact hkeep _ fun _ _ => rfl
  · exact hkeep _ fun _ _ => rfl

/-- `f'` is `f` with other operations, of which each is a phi, a terminator or a store if the one
in its place is. -/
structure Alike (f f' : Func) : Prop where
  name : f'.name = f.name
  params : f'.params = f.params
  blocks : f'.blocks = f.blocks
  layout : f'.layout = f.layout
  size : f'.insts.size = f.insts.size
  owner : ∀ i, f'.owner? i = f.owner? i
  label : ∀ i, (f'.inst? i).map (·.name) = (f.inst? i).map (·.name)
  isTerminator : ∀ i, f'.isTerminator i = f.isTerminator i
  isPhi : ∀ i, f'.isPhi i = f.isPhi i
  writesMemory : ∀ i, f'.writesMemory i = f.writesMemory i

namespace Alike

theorem refl (f : Func) : Alike f f := by constructor <;> intros <;> rfl

theorem trans (h : Alike f f') (h' : Alike f' f'') : Alike f f'' where
  name := h'.name.trans h.name
  params := h'.params.trans h.params
  blocks := h'.blocks.trans h.blocks
  layout := h'.layout.trans h.layout
  size := h'.size.trans h.size
  owner i := (h'.owner i).trans (h.owner i)
  label i := (h'.label i).trans (h.label i)
  isTerminator i := (h'.isTerminator i).trans (h.isTerminator i)
  isPhi i := (h'.isPhi i).trans (h.isPhi i)
  writesMemory i := (h'.writesMemory i).trans (h.writesMemory i)

variable (h : Alike f f')

include h

theorem reworked : Reworked f f' :=
  ⟨h.name, h.params, h.blocks, h.layout, h.size, h.owner, h.label⟩

theorem body (b : BlockId) : f'.body b = f.body b := h.reworked.body b

theorem terminator? (b : BlockId) : f'.terminator? b = f.terminator? b := by
  rw [Func.terminator?, Func.terminator?, h.body]
  congr 1
  exact funext h.isTerminator

theorem phis (b : BlockId) : f'.phis b = f.phis b := by
  rw [Func.phis, Func.phis, h.body]
  congr 1
  exact funext h.isPhi

theorem liveInsts : f'.liveInsts = f.liveInsts := by
  rw [Func.liveInsts, Func.liveInsts, h.layout, funext h.body]

theorem contains (b : BlockId) : f'.contains b = f.contains b := h.reworked.contains b

end Alike

theorem op?_modifyOp (f : Func) (i j : InstId) (g : Operation → Operation) :
    (f.modifyOp i g).op? j = if j = i then (f.op? j).map g else f.op? j := by
  have hij : i.index = j.index ↔ j = i := by
    cases i
    cases j
    simp [eq_comm]
  simp only [op?, inst?, modifyOp, modifyInst, Array.getElem?_modify, hij]
  split
  · rw [Option.map_map, Option.map_map]
    rfl
  · rfl

theorem alike_modifyOp (f : Func) (i : InstId) (g : Operation → Operation)
    (hg : ∀ op, f.op? i = some op → (g op).isTerminator = op.isTerminator ∧
      (g op).isPhi = op.isPhi ∧ (g op).writesMemory = op.writesMemory) :
    Alike f (f.modifyOp i g) := by
  have h := reworked_modifyOp f i g
  refine ⟨h.name, h.params, h.blocks, h.layout, h.size, h.owner, h.label, fun j => ?_,
    fun j => ?_, fun j => ?_⟩
  all_goals
    simp only [isTerminator, isPhi, writesMemory, op?_modifyOp]
    split
    case isTrue h =>
      subst j
      cases hop : f.op? i with
      | none => rfl
      | some op => simp [hg op hop]
    case isFalse => rfl

theorem op_isTerminator (h : f.terminator? b = some i) {op : Operation} (hop : f.op? i = some op) :
    op.isTerminator := by
  have := (Option.filter_eq_some_iff.1 h).2
  simpa [isTerminator, hop] using this

/-! Branches. -/

section Branches

variable (f) (b) (old new : BlockId)

theorem alike_replaceSuccessor : Alike f (f.replaceSuccessor b old new).2 := by
  rw [replaceSuccessor]
  split
  · exact alike_modifyOp f _ _ fun op _ => by simp
  · exact .refl f

theorem op?_replaceSuccessor (i : InstId) : (f.replaceSuccessor b old new).2.op? i =
    if f.terminator? b = some i then (f.op? i).map (.mapTargets (replace old new))
    else f.op? i := by
  rw [replaceSuccessor]
  split
  case h_1 t ht =>
    rw [op?_modifyOp, ht]
    simp only [Option.some.injEq, eq_comm]
  case h_2 ht => simp [ht]

theorem alike_setTerminator (op : Operation) (ht : op.isTerminator) :
    Alike f (f.setTerminator b op).2 := by
  rw [setTerminator]
  split
  case h_1 t h =>
    refine alike_modifyOp f t (fun _ => op) fun op' hop => ?_
    have ht' := op_isTerminator h hop
    refine ⟨by rw [ht, ht'], ?_, ?_⟩
    · cases op <;> cases op' <;> simp_all [Operation.isTerminator, Operation.isPhi]
    · cases op <;> cases op' <;> simp_all [Operation.isTerminator, Operation.writesMemory]
  · exact .refl f

theorem op?_setTerminator (op : Operation) (i : InstId) : (f.setTerminator b op).2.op? i =
    if f.terminator? b = some i then (f.op? i).map fun _ => op else f.op? i := by
  rw [setTerminator]
  split
  case h_1 t ht =>
    rw [op?_modifyOp, ht]
    simp only [Option.some.injEq, eq_comm]
  case h_2 ht => simp [ht]

end Branches

theorem alike_replaceSuccessors (f : Func) (bs : List BlockId) (old new : BlockId) :
    Alike f (bs.foldl (fun f b => (f.replaceSuccessor b old new).2) f) := by
  induction bs generalizing f with
  | nil => exact .refl f
  | cons b bs ih => exact (alike_replaceSuccessor f b old new).trans (ih _)

theorem mapTargets_mapTargets_replace (old new : BlockId) (op : Operation) :
    (op.mapTargets (replace old new)).mapTargets (replace old new) =
      op.mapTargets (replace old new) := by
  cases op <;> simp [Operation.mapTargets, replace_replace]

theorem op?_replaceSuccessors (f : Func) (bs : List BlockId) (old new : BlockId) (i : InstId) :
    (bs.foldl (fun f b => (f.replaceSuccessor b old new).2) f).op? i =
      if ∃ b ∈ bs, f.terminator? b = some i then (f.op? i).map (.mapTargets (replace old new))
      else f.op? i := by
  induction bs generalizing f with
  | nil => simp
  | cons b bs ih =>
    rw [List.foldl_cons, ih, op?_replaceSuccessor]
    simp only [(alike_replaceSuccessor f b old new).terminator?]
    by_cases hb : f.terminator? b = some i
    · have hex : ∃ c ∈ b :: bs, f.terminator? c = some i := ⟨b, List.mem_cons_self .., hb⟩
      rw [if_pos hb, if_pos hex]
      split
      · cases f.op? i with
        | none => rfl
        | some op => simp [mapTargets_mapTargets_replace]
      · rfl
    · simp [hb]

/-! The same change to several operations. -/

theorem alike_modifyOps (f : Func) (is : List InstId) (g : Operation → Operation)
    (hg : ∀ op, (g op).isTerminator = op.isTerminator ∧ (g op).isPhi = op.isPhi ∧
      (g op).writesMemory = op.writesMemory) :
    Alike f (is.foldl (fun f i => f.modifyOp i g) f) := by
  induction is generalizing f with
  | nil => exact .refl f
  | cons i is ih => exact (alike_modifyOp f i g fun op _ => hg op).trans (ih _)

theorem op?_modifyOps (f : Func) (is : List InstId) (g : Operation → Operation)
    (h : is.Nodup ∨ ∀ op, g (g op) = g op) (i : InstId) :
    (is.foldl (fun f i => f.modifyOp i g) f).op? i =
      if i ∈ is then (f.op? i).map g else f.op? i := by
  induction is generalizing f with
  | nil => simp
  | cons j is ih =>
    rw [List.foldl_cons, ih _ (h.imp_left fun h => (List.nodup_cons.1 h).2), op?_modifyOp]
    by_cases hij : i = j
    · subst i
      rw [if_pos rfl, if_pos (List.mem_cons_self ..)]
      split
      case isTrue hj =>
        have hg := h.resolve_left fun h => (List.nodup_cons.1 h).1 hj
        cases f.op? j with
        | none => rfl
        | some op => simp [hg]
      case isFalse => rfl
    · simp [hij]

theorem alike_modifyPhis (f : Func) (b : BlockId) (g) : Alike f (f.modifyPhis b g) :=
  alike_modifyOps f _ _ fun op => by simp

theorem alike_replacePhiIncomingBlock (f : Func) (b old new : BlockId) :
    Alike f (f.replacePhiIncomingBlock b old new) :=
  alike_modifyPhis f b _

theorem op?_modifyPhis (f : Func) (b : BlockId) (g) (hn : (f.phis b).Nodup) (i : InstId) :
    (f.modifyPhis b g).op? i =
      if i ∈ f.phis b then (f.op? i).map (.mapIncoming g) else f.op? i :=
  op?_modifyOps f _ _ (.inl hn) i

/-- The second parts of a fold that does not look at the first ones. -/
theorem foldl_snd {α β γ : Type} {step : α × β → γ → α × β} {g : β → γ → β}
    (h : ∀ s x, (step s x).2 = g s.2 x) (xs : List γ) (s : α × β) :
    (xs.foldl step s).2 = xs.foldl g s.2 := by
  induction xs generalizing s with
  | nil => rfl
  | cons x xs ih => rw [List.foldl_cons, List.foldl_cons, ih, h]

theorem replaceAllUses_snd (f : Func) (old new : Value) : (f.replaceAllUses old new).2 =
    f.liveInsts.foldl (fun f i => f.modifyOp i (.mapOperands (replace old new))) f :=
  foldl_snd (fun _ _ => rfl) _ _

theorem alike_replaceAllUses (f : Func) (old new : Value) :
    Alike f (f.replaceAllUses old new).2 := by
  rw [replaceAllUses_snd]
  exact alike_modifyOps f _ _ fun op => by simp

theorem op?_replaceAllUses (f : Func) (old new : Value) (i : InstId) :
    (f.replaceAllUses old new).2.op? i =
      if i ∈ f.liveInsts then (f.op? i).map (.mapOperands (replace old new)) else f.op? i := by
  rw [replaceAllUses_snd, op?_modifyOps]
  refine .inr fun op => ?_
  rw [Operation.mapOperands_mapOperands]
  congr 1
  exact funext fun v => replace_replace old new v

/-! Edits one after the other. -/

/-- `f'` has the operations `g i op` in place of the operations `op` of `f`. -/
structure Rewrites (f f' : Func) (g : InstId → Operation → Operation) : Prop where
  alike : Alike f f'
  op? : ∀ i, f'.op? i = (f.op? i).map (g i)

namespace Rewrites

variable {g : InstId → Operation → Operation}

theorem refl (f : Func) : Rewrites f f fun _ op => op := ⟨.refl f, fun i => by simp⟩

variable (h : Rewrites f f' g)

include h

theorem step {f'' : Func} {k : Operation → Operation} {P : InstId → Prop} [DecidablePred P]
    (ha : Alike f' f'') (hk : ∀ i, f''.op? i = if P i then (f'.op? i).map k else f'.op? i) :
    Rewrites f f'' fun i op => if P i then k (g i op) else g i op := by
  refine ⟨h.alike.trans ha, fun i => ?_⟩
  rw [hk, h.op?]
  split
  · rw [Option.map_map]
    rfl
  · rfl

theorem replaceAllUses (old new : Value) : Rewrites f (f'.replaceAllUses old new).2 fun i op =>
    if i ∈ f.liveInsts then (g i op).mapOperands (replace old new) else g i op :=
  h.step (alike_replaceAllUses f' old new) fun i => by
    rw [op?_replaceAllUses, h.alike.liveInsts]

theorem replaceSuccessor (b old new : BlockId) :
    Rewrites f (f'.replaceSuccessor b old new).2 fun i op =>
      if f.terminator? b = some i then (g i op).mapTargets (replace old new) else g i op :=
  h.step (alike_replaceSuccessor f' b old new) fun i => by
    rw [op?_replaceSuccessor, h.alike.terminator?]

theorem replaceSuccessors (bs : List BlockId) (old new : BlockId) :
    Rewrites f (bs.foldl (fun f b => (f.replaceSuccessor b old new).2) f') fun i op =>
      if ∃ b ∈ bs, f.terminator? b = some i then (g i op).mapTargets (replace old new)
      else g i op :=
  h.step (alike_replaceSuccessors f' bs old new) fun i => by
    rw [op?_replaceSuccessors, funext h.alike.terminator?]

theorem setTerminator (b : BlockId) {op : Operation} (ht : op.isTerminator) :
    Rewrites f (f'.setTerminator b op).2 fun i op' =>
      if f.terminator? b = some i then op else g i op' :=
  h.step (alike_setTerminator f' b op ht) fun i => by
    rw [op?_setTerminator, h.alike.terminator?]

theorem modifyPhis (b : BlockId) (k) (hn : (f.phis b).Nodup) :
    Rewrites f (f'.modifyPhis b k) fun i op =>
      if i ∈ f.phis b then (g i op).mapIncoming k else g i op :=
  h.step (alike_modifyPhis f' b k) fun i => by
    rw [op?_modifyPhis _ _ _ (by rwa [h.alike.phis]), h.alike.phis]

end Rewrites

/-! The layout. -/

theorem block?_modifyBlock (f : Func) (b c : BlockId) (g : Block → Block) :
    (f.modifyBlock b g).block? c = if c = b then (f.block? c).map g else f.block? c := by
  have hbc : b.index = c.index ↔ c = b := by
    cases b
    cases c
    simp [eq_comm]
  simp only [block?, modifyBlock, Array.getElem?_modify, hbc]

/-- What is left of a function after several blocks have been retired. -/
structure Retired (f : Func) (bs : List BlockId) (f' : Func) : Prop where
  params : f'.params = f.params
  insts : f'.insts = f.insts
  size : f'.blocks.size = f.blocks.size
  layout : f'.layout = f.layout.filter fun b => !bs.contains b
  body : ∀ c, f'.body c = f.body c
  contains : ∀ c, f'.contains c = (f.contains c && !bs.contains c)

theorem block?_removeBlock (f : Func) (b c : BlockId) : (f.removeBlock b).block? c =
    if c = b then (f.block? c).map fun blk => { blk with detached := true } else f.block? c :=
  block?_modifyBlock f b c _

theorem body_removeBlock (f : Func) (b c : BlockId) : (f.removeBlock b).body c = f.body c := by
  rw [body, block?_removeBlock, body]
  split
  · cases f.block? c <;> rfl
  · rfl

theorem contains_removeBlock (f : Func) (b c : BlockId) :
    (f.removeBlock b).contains c = (f.contains c && c ≠ b) := by
  rw [contains, block?_removeBlock, contains]
  by_cases hc : c = b
  · cases f.block? c <;> simp [hc]
  · simp [hc]

theorem retired_removeBlocks (f : Func) (bs : List BlockId) :
    Retired f bs (bs.foldl removeBlock f) := by
  induction bs generalizing f with
  | nil => exact ⟨rfl, rfl, rfl, (List.filter_eq_self.2 (by simp)).symm, fun _ => rfl, by simp⟩
  | cons b bs ih =>
    have h := ih (f.removeBlock b)
    refine ⟨h.params, h.insts, h.size.trans ?_, h.layout.trans ?_, fun c => ?_, fun c => ?_⟩
    · simp [removeBlock, modifyBlock]
    · change (f.layout.filter (· ≠ b)).filter _ = _
      rw [List.filter_filter]
      congr 1
      funext c
      by_cases hc : c = b <;> simp [hc]
    · rw [List.foldl_cons, h.body, body_removeBlock]
    · rw [List.foldl_cons, h.contains, contains_removeBlock]
      by_cases hc : c = b <;> simp [hc]

section Move

variable (f : Func) {bs : List BlockId} {anchor : BlockId}

theorem mem_moveBlocksBefore (hbs : ∀ b ∈ bs, b ∈ f.layout) :
    b ∈ (f.moveBlocksBefore bs anchor).layout ↔ b ∈ f.layout := by
  let rest := f.layout.filter fun b => !bs.contains b
  change b ∈ rest.takeWhile (· ≠ anchor) ++ bs ++ rest.dropWhile (· ≠ anchor) ↔ _
  have hrest : b ∈ rest ↔ b ∈ f.layout ∧ b ∉ bs := by simp [rest]
  have hsplit : b ∈ rest ↔ b ∈ rest.takeWhile (· ≠ anchor) ∨ b ∈ rest.dropWhile (· ≠ anchor) := by
    rw [← List.mem_append, List.takeWhile_append_dropWhile]
  rw [List.mem_append, List.mem_append]
  have := hbs b
  tauto

theorem layout_moveBlocksBefore {pre post : List BlockId}
    (hrest : (f.layout.filter fun b => !bs.contains b) = pre ++ anchor :: post)
    (hpre : anchor ∉ pre) : (f.moveBlocksBefore bs anchor).layout = pre ++ bs ++ anchor :: post := by
  have hkeep : ∀ b ∈ pre, decide (b ≠ anchor) = true := fun b hb =>
    decide_eq_true (ne_of_mem_of_not_mem hb hpre)
  rw [moveBlocksBefore, hrest, List.takeWhile_append_of_pos hkeep,
    List.dropWhile_append_of_pos hkeep]
  simp

theorem nodup_moveBlocksBefore (hf : f.layout.Nodup) (hbs : bs.Nodup) :
    (f.moveBlocksBefore bs anchor).layout.Nodup := by
  let rest := f.layout.filter fun b => !bs.contains b
  have hrest : rest.Nodup := hf.filter _
  have hperm : (rest.takeWhile (· ≠ anchor) ++ bs ++ rest.dropWhile (· ≠ anchor)).Perm
      (bs ++ rest) := by
    rw [List.append_assoc]
    refine List.perm_append_comm_assoc _ _ _ |>.trans ?_
    rw [List.takeWhile_append_dropWhile]
  refine hperm.nodup_iff.2 (List.nodup_append.2 ⟨hbs, hrest, fun x hx y hy he => ?_⟩)
  have := (List.mem_filter.1 hy).2
  simp [← he, hx] at this

theorem head?_moveBlocksBefore {e : BlockId} (he : f.layout.head? = some e) (hbs : e ∉ bs)
    (hne : e ≠ anchor) : (f.moveBlocksBefore bs anchor).layout.head? = some e := by
  obtain ⟨l, hl⟩ := List.head?_eq_some_iff.1 he
  change ((f.layout.filter _).takeWhile _ ++ bs ++ (f.layout.filter _).dropWhile _).head? = _
  simp [hl, hbs, hne]

end Move

end Func

end LoopFusion
