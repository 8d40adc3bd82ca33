import LoopFusion.Proofs.Guarded.Search

/-!
The tables of the control-flow graph, written entry by entry. Whoever has made sure that the blocks
of the layout, their instructions and the targets of their branches have slots can write them all,
and gets the graph that the search for dominators starts from.
-/

namespace LoopFusion.Guarded

open LoopFusion.Flow

def exitOp (f : Func) (b : BlockId) : Option (Option Operation) := do
  let blk ← f.blocks[b.index]?
  match blk.insts.getLast? with
  | none => return none
  | some i =>
    let inst ← f.insts[i.index]?
    return if inst.op.isTerminator then some inst.op else none

structure Edges where
  succs : Array (List BlockId)
  preds : Array (List BlockId)
  returning : List BlockId

def addEdge (b : BlockId) (preds : Array (List BlockId)) (s : BlockId) :
    Option (Array (List BlockId)) := do
  let ps ← preds[s.index]?
  if ps.contains b then return preds else put preds s.index (ps ++ [b])

def rowOf (exit : Option Operation) : List BlockId := (exit.elim [] Operation.targets).eraseReps

def addBlock (f : Func) (t : Edges) (b : BlockId) : Option Edges := do
  let exit ← exitOp f b
  let preds ← (rowOf exit).foldlM (addEdge b) t.preds
  let succs ← put t.succs b.index (rowOf exit)
  return ⟨succs, preds, t.returning ++ if exit.any Operation.isRet then [b] else []⟩

/-- Nothing is reached in a function without blocks. -/
noncomputable def orderFrom (succs : Array (List BlockId)) : Option BlockId → Option (List BlockId)
  | some e => (postorder succs e).map List.reverse
  | none => some []

/-- The graph, and for each block its position in the order. -/
noncomputable def cfg (f : Func) : Option (Cfg × Array (Option Nat)) := do
  let blank := Array.replicate f.blocks.size []
  let t ← f.layout.foldlM (addBlock f) ⟨blank, blank, []⟩
  let order ← orderFrom t.succs f.entry?
  let places ← fill (Array.replicate f.blocks.size none)
    (order.zipIdx.map fun x => (x.1, some x.2))
  return (⟨f.entry?, t.succs, t.preds, order, t.returning⟩, places)

def reached (places : Array (Option Nat)) (b : BlockId) : Bool := places[b.index]?.join.isSome

def position? (places : Array (Option Nat)) (b : BlockId) : Option Nat := places[b.index]?.join

/-- A fold that may stop does not, if no step does as long as `P` holds. -/
theorem foldlM_eq_some {α β : Type} {g : β → α → Option β} {g' : β → α → β} (P : β → Prop)
    {l : List α} (hstep : ∀ s, P s → ∀ a ∈ l, g s a = some (g' s a) ∧ P (g' s a)) {s : β}
    (hs : P s) : l.foldlM g s = some (l.foldl g' s) := by
  induction l generalizing s with
  | nil => rfl
  | cons a l ih =>
    obtain ⟨ha, hPa⟩ := hstep s hs a (List.mem_cons_self ..)
    rw [List.foldlM_cons, ha, List.foldl_cons]
    exact ih (fun s hs x hx => hstep s hs x (List.mem_cons_of_mem _ hx)) hPa

/-- The blocks of the layout, their instructions and their targets have slots. -/
structure Slotted (f : Func) : Prop where
  arena : f.InArena
  known : ∀ b ∈ f.layout, ∀ i ∈ f.body b, ∃ inst, f.inst? i = some inst

variable {f : Func} {b s e : BlockId} {t preds : Array (List BlockId)}

theorem Slotted.block (h : Slotted f) (hb : b ∈ f.layout) :
    ∃ blk, f.blocks[b.index]? = some blk ∧ blk.insts = f.body b := by
  have hlt := h.arena.layout b hb
  refine ⟨f.blocks[b.index], Array.getElem?_eq_getElem hlt, ?_⟩
  simp [Func.body, Func.block?, Array.getElem?_eq_getElem hlt]

theorem exitOp_eq (h : Slotted f) (hb : b ∈ f.layout) : exitOp f b = some (f.exitOp? b) := by
  obtain ⟨blk, hblk, hbody⟩ := h.block hb
  rw [exitOp, Func.exitOp?, Func.terminator?, hblk, Option.bind_eq_bind, Option.bind_some, hbody]
  cases hlast : (f.body b).getLast? with
  | none => rfl
  | some i =>
    obtain ⟨inst, hinst⟩ := h.known b hb i (List.mem_of_getLast? hlast)
    have hop : f.op? i = some inst.op := by rw [Func.op?, hinst, Option.map_some]
    have hslot : f.insts[i.index]? = some inst := hinst
    rw [Option.filter_some, Func.isTerminator_of_op? hop]
    cases ht : inst.op.isTerminator <;> simp [hslot, hop, ht]

theorem addEdge_eq (hs : s.index < preds.size) :
    addEdge b preds s = some (Cfg.addEdge b preds s) := by
  have hrow : preds[s.index]? = some preds[s.index] := Array.getElem?_eq_getElem hs
  rw [addEdge, hrow, Option.bind_eq_bind, Option.bind_some, put_eq_some hs, Cfg.addEdge]
  by_cases hb : preds[s.index].contains b
  · rw [if_pos hb]
    apply congrArg some
    apply Array.ext_getElem?
    intro i
    rw [Array.getElem?_modify]
    split
    case isTrue hi =>
      subst i
      rw [hrow, Option.map_some, if_pos hb]
    case isFalse => rfl
  · rw [if_neg hb]
    apply congrArg some
    apply Array.ext_getElem?
    intro i
    rw [Array.getElem?_modify, getElem?_setIfInBounds hs]
    by_cases hi : i = s.index
    · subst i
      rw [if_pos rfl, if_pos rfl, hrow, Option.map_some, if_neg hb]
    · rw [if_neg hi, if_neg (Ne.symm hi)]

theorem foldlM_addEdge {n : Nat} {row : List BlockId} (hrow : ∀ s ∈ row, s.index < n)
    (hp : preds.size = n) :
    row.foldlM (addEdge b) preds = some (row.foldl (Cfg.addEdge b) preds) := by
  apply foldlM_eq_some (fun p => p.size = n) _ hp
  intro p hp s hs
  constructor
  · exact addEdge_eq (by rw [hp]; exact hrow s hs)
  · rw [Cfg.addEdge, Array.size_modify, hp]

def plain (f : Func) (t : Edges) (b : BlockId) : Edges where
  succs := t.succs.setIfInBounds b.index (f.successors b).eraseReps
  preds := (f.successors b).eraseReps.foldl (Cfg.addEdge b) t.preds
  returning := t.returning ++ if (f.exitOp? b).any Operation.isRet then [b] else []

theorem addBlock_eq (h : Slotted f) (hb : b ∈ f.layout) {t : Edges}
    (hs : t.succs.size = f.blocks.size) (hp : t.preds.size = f.blocks.size) :
    addBlock f t b = some (plain f t b) := by
  have hrow : ∀ s ∈ (f.successors b).eraseReps, s.index < f.blocks.size := by
    intro s hs
    exact h.arena.targets b s ⟨hb, (mem_eraseReps _).1 hs⟩
  have hlt : b.index < t.succs.size := by rw [hs]; exact h.arena.layout b hb
  have hexit : rowOf (f.exitOp? b) = (f.successors b).eraseReps := rfl
  rw [addBlock, exitOp_eq h hb, Option.bind_eq_bind, Option.bind_some, hexit]
  rw [foldlM_addEdge hrow hp, Option.bind_eq_bind, Option.bind_some, put_eq_some hlt]
  rfl

theorem foldlM_addBlock (h : Slotted f) {t : Edges} (hs : t.succs.size = f.blocks.size)
    (hp : t.preds.size = f.blocks.size) :
    f.layout.foldlM (addBlock f) t = some (f.layout.foldl (plain f) t) := by
  apply foldlM_eq_some (fun t => t.succs.size = f.blocks.size ∧ t.preds.size = f.blocks.size) _
    ⟨hs, hp⟩
  rintro t ⟨hs, hp⟩ b hb
  refine ⟨addBlock_eq h hb hs hp, ?_, ?_⟩
  · rw [plain, Array.size_setIfInBounds, hs]
  · rw [plain, Cfg.size_addEdges, hp]

theorem foldl_plain (bs : List BlockId) (t : Edges) : bs.foldl (plain f) t =
    ⟨bs.foldl (fun t b => t.setIfInBounds b.index (f.successors b).eraseReps) t.succs,
      bs.foldl (fun t b => (f.successors b).eraseReps.foldl (Cfg.addEdge b) t) t.preds,
      t.returning ++ bs.filter fun b => (f.exitOp? b).any Operation.isRet⟩ := by
  induction bs generalizing t with
  | nil => simp
  | cons b bs ih =>
    rw [List.foldl_cons, ih, List.foldl_cons, List.foldl_cons, List.filter_cons, plain]
    split <;> simp

theorem getElem?_foldl_set {α : Type} (row : BlockId → α) (bs : List BlockId) (t : Array α)
    (i : Nat) : (bs.foldl (fun t b => t.setIfInBounds b.index (row b)) t)[i]? =
      if i < t.size ∧ ⟨i⟩ ∈ bs then some (row ⟨i⟩) else t[i]? := by
  induction bs generalizing t with
  | nil => simp
  | cons b bs ih =>
    rw [List.foldl_cons, ih, Array.size_setIfInBounds, Array.getElem?_setIfInBounds]
    by_cases hb : b.index = i
    · subst hb
      by_cases hi : b.index < t.size <;> simp [hi]
    · have hne : (⟨i⟩ : BlockId) ≠ b := fun h => hb (congrArg BlockId.index h.symm)
      simp [hb, hne]

theorem succTable_eq : f.layout.foldl
    (fun t b => t.setIfInBounds b.index (f.successors b).eraseReps)
      (Array.replicate f.blocks.size []) = Cfg.succTableOf f := by
  apply Array.ext_getElem?
  intro i
  rw [getElem?_foldl_set, Array.size_replicate, Array.getElem?_replicate, Cfg.succTableOf,
    Array.getElem?_map, Array.getElem?_range]
  by_cases hi : i < f.blocks.size <;> by_cases hb : (⟨i⟩ : BlockId) ∈ f.layout <;> simp [hi, hb]

theorem predTable_eq : f.layout.foldl
    (fun t b => (f.successors b).eraseReps.foldl (Cfg.addEdge b) t)
      (Array.replicate f.blocks.size []) = Cfg.predTableOf f (Cfg.ofFunc f).succs := by
  apply List.foldl_ext
  intro t b hb
  rw [Cfg.succs_ofFunc, if_pos hb]

theorem size_succTableOf (f : Func) : (Cfg.succTableOf f).size = f.blocks.size :=
  Cfg.capacity_ofFunc f

theorem size_predTable (f : Func) : (Cfg.ofFunc f).predTable.size = f.blocks.size := by
  have hsize : ∀ (bs : List BlockId) (t : Array (List BlockId)),
      (bs.foldl (fun t b => ((Cfg.ofFunc f).succs b).foldl (Cfg.addEdge b) t) t).size = t.size := by
    intro bs
    induction bs with
    | nil => exact fun t => rfl
    | cons b bs ih =>
      intro t
      rw [List.foldl_cons, ih, Cfg.size_addEdges]
  exact (hsize _ _).trans Array.size_replicate

theorem Slotted.succs_lt (h : Slotted f) (i : Nat) (row : List BlockId)
    (hrow : (Cfg.succTableOf f)[i]? = some row) :
    ∀ s ∈ row, s.index < (Cfg.succTableOf f).size := by
  intro s hs
  have hmem : s ∈ (Cfg.ofFunc f).succs ⟨i⟩ := by
    change s ∈ (Cfg.succTableOf f)[i]?.getD []
    rwa [hrow]
  rw [size_succTableOf]
  exact h.arena.targets ⟨i⟩ s (Cfg.mem_succs.1 hmem)

theorem orderFrom_eq (h : Slotted f) :
    orderFrom (Cfg.succTableOf f) f.entry? = some (Cfg.ofFunc f).order := by
  cases he : f.entry? with
  | none =>
    rw [orderFrom, Cfg.order_eq_nil he]
  | some e =>
    have hroot : e.index < (Cfg.succTableOf f).size := by
      rw [size_succTableOf]
      exact h.arena.layout e (List.mem_of_head? he)
    rw [orderFrom, postorder_spec h.succs_lt hroot
      (explores_reversePostorder (Dominators.regular h.arena he)), Option.map_some,
      List.reverse_reverse, Cfg.order_ofFunc he, ← Cfg.capacity_ofFunc f]
    rfl

theorem order_spec (h : Slotted f) :
    (Cfg.ofFunc f).order.Nodup ∧ ∀ b ∈ (Cfg.ofFunc f).order, b.index < f.blocks.size := by
  cases he : f.entry? with
  | none =>
    simp [Cfg.order_eq_nil he]
  | some e =>
    refine ⟨Cfg.nodup_order h.arena he, fun b hb => ?_⟩
    rcases ((Cfg.mem_order h.arena he).1 hb).cases_tail with rfl | ⟨a, -, hab⟩
    · exact h.arena.layout b (List.mem_of_head? he)
    · exact h.arena.targets a b hab

theorem fill_zipIdx {α : Type} {order : List BlockId} (hn : order.Nodup) {t : Array α}
    (hlt : ∀ b ∈ order, b.index < t.size) (place : Nat → α) :
    ∃ t', fill t (order.zipIdx.map fun x => (x.1, place x.2)) = some t' ∧ t'.size = t.size ∧
      (∀ b, b ∉ order → t'[b.index]? = t[b.index]?) ∧
      ∀ i b, order[i]? = some b → t'[b.index]? = some (place i) := by
  have hfst : (order.zipIdx.map fun x => (x.1, place x.2)).map (·.1) = order := by
    rw [List.map_map]
    exact List.zipIdx_map_fst 0 order
  have hmem : ∀ x ∈ order.zipIdx.map fun x => (x.1, place x.2), x.1 ∈ order := by
    intro x hx
    rw [← hfst]
    exact List.mem_map_of_mem hx
  obtain ⟨t', ht', hsize, hoff, hat⟩ := fill_spec _ t fun x hx => hlt x.1 (hmem x hx)
  refine ⟨t', ht', hsize, fun b hb => ?_, fun i b hi => ?_⟩
  · apply hoff b
    rintro x hx rfl
    exact hb (hmem x hx)
  · apply hat (by rwa [hfst]) (b, place i)
    exact List.mem_map.2 ⟨(b, i), List.mem_zipIdx_iff_getElem?.2 hi, rfl⟩

/-- Nothing is looked up in vain, and what is written is the graph. -/
theorem cfg_eq (h : Slotted f) : ∃ places, cfg f = some (Cfg.ofFunc f, places) ∧
    ∀ b, position? places b = (Cfg.ofFunc f).position? b := by
  obtain ⟨hnodup, hlt⟩ := order_spec h
  obtain ⟨places, hplaces, -, hoff, hat⟩ := fill_zipIdx hnodup
    (t := Array.replicate f.blocks.size none) (by rwa [Array.size_replicate]) some
  have hblank : (Array.replicate f.blocks.size ([] : List BlockId)).size = f.blocks.size :=
    Array.size_replicate
  refine ⟨places, ?_, fun b => ?_⟩
  · rw [cfg, foldlM_addBlock h hblank hblank, Option.bind_eq_bind, Option.bind_some, foldl_plain]
    simp only [succTable_eq, predTable_eq, List.nil_append, orderFrom_eq h, hplaces,
      Option.bind_eq_bind, Option.bind_some]
    rfl
  · rw [position?, Cfg.position?]
    by_cases hb : b ∈ (Cfg.ofFunc f).order
    · obtain ⟨i, hi⟩ := List.mem_iff_getElem?.1 hb
      rw [hat i b hi, (idxOf?_eq_some_of_nodup hnodup).2 hi, Option.join_some]
    · rw [hoff b hb, List.idxOf?_eq_none_iff.2 hb, Array.getElem?_replicate]
      split <;> rfl

theorem reached_eq {places : Array (Option Nat)} {g : Cfg}
    (h : ∀ b, position? places b = g.position? b) (b : BlockId) :
    reached places b = g.reachable b := by
  change (position? places b).isSome = _
  rw [h, Cfg.position?, Cfg.reachable, Bool.eq_iff_iff, List.isSome_idxOf?,
    List.contains_iff_mem]

/-- There are no tables for a layout with a block that has no slot. -/
example : (cfg ⟨"f", [], #[], #[], [⟨3⟩]⟩).isNone := by
  decide +kernel

end LoopFusion.Guarded
