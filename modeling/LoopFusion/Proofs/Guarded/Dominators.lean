import LoopFusion.Proofs.Guarded.Fixpoint

/-!
Dominators looked up in tables. The search goes through copies of the rows of the graph, and on the
graph of slotted blocks it finds for all blocks what is read off the tree of numbered nodes.
-/

namespace LoopFusion.Guarded

open LoopFusion.Flow Flow.Parents

def rows (n : Nat) (t : Array (List BlockId)) : Option (Array (List BlockId)) := do
  return (← (List.range n).mapM (t[·]?)).toArray

noncomputable def dominators (g : Cfg) : Option (Option IdomTable) :=
  match g.entry? with
  | none => some none
  | some e => do
    let succs ← rows g.capacity g.succTable
    let preds ← rows g.capacity g.predTable
    return some (← IdomTable.compute succs preds e)

noncomputable def dominates (d : Option IdomTable) (a b : BlockId) : Option Bool :=
  d.elim (some false) fun t => t.dominates a b

theorem mapM_eq_some {α β : Type} {g : α → Option β} {g' : α → β} {l : List α}
    (h : ∀ a ∈ l, g a = some (g' a)) : l.mapM g = some (l.map g') := by
  induction l with
  | nil => rfl
  | cons a l ih =>
    rw [List.forall_mem_cons] at h
    simp [List.mapM_cons, h.1, ih h.2]

theorem rows_eq {n : Nat} {t : Array (List BlockId)} (h : t.size = n) : rows n t = some t := by
  have hrow : ∀ i ∈ List.range n, t[i]? = some (t[i]?.getD []) := by
    intro i hi
    have hi : i < t.size := by rwa [h, ← List.mem_range]
    rw [Array.getElem?_eq_getElem hi, Option.getD_some]
  rw [rows, mapM_eq_some hrow, Option.bind_eq_bind, Option.bind_some]
  apply congrArg some
  apply Array.ext_getElem?
  intro i
  by_cases hi : i < n <;> simp [hi, h]

variable {f : Func} {b : BlockId}

theorem Slotted.inverse (h : Slotted f) :
    Inverse (Cfg.ofFunc f).succTable (Cfg.ofFunc f).predTable := by
  constructor
  · rw [size_predTable]
    exact (size_succTableOf f).symm
  · intro a b
    exact Cfg.mem_succs.trans (Cfg.mem_preds_iff h.arena).symm

theorem Slotted.preds_row (h : Slotted f) (hb : b.index < f.blocks.size) :
    ∃ row, (Cfg.ofFunc f).predTable[b.index]? = some row ∧ (Cfg.ofFunc f).preds b = row ∧
      ∀ p ∈ row, p.index < f.blocks.size := by
  rw [← size_succTableOf f] at hb ⊢
  exact h.inverse.preds_row hb

/-- The tables answer for any two blocks, as the tree does. -/
theorem dominators_eq (h : Slotted f) : ∃ d, dominators (Cfg.ofFunc f) = some d ∧
    ∀ a b, dominates d a b = some ((Dominators.ofCfg (Cfg.ofFunc f)).dominates a b) := by
  cases he : f.entry? with
  | none =>
    refine ⟨none, ?_, fun a b => ?_⟩
    · rw [dominators, Cfg.entry_ofFunc, he]
    · rw [Dominators.dominates, Dominators.ofCfg, Cfg.entry_ofFunc, he]
      rfl
  | some e =>
    have hroot : e.index < (Cfg.ofFunc f).succTable.size := by
      rw [← Cfg.capacity, Cfg.capacity_ofFunc]
      exact h.arena.layout e (List.mem_of_head? he)
    obtain ⟨num, first, n, last, idom, hstart, -, hsteps, hlast, hs⟩ := passes_spec h.inverse hroot
    rw [← List.reverse_reverse (DomTree.orderOf _)] at hsteps hlast
    have hcompute := hstart.compute_eq hsteps hlast
    refine ⟨some ⟨idom, e⟩, ?_, fun a b => ?_⟩
    · have hpreds : (Cfg.ofFunc f).predTable.size = (Cfg.ofFunc f).capacity := by
        rw [size_predTable, Cfg.capacity_ofFunc]
      have hsuccs : (Cfg.ofFunc f).succTable.size = (Cfg.ofFunc f).capacity := rfl
      rw [dominators, Cfg.entry_ofFunc, he]
      simp only [rows_eq hsuccs, rows_eq hpreds, hcompute, Option.bind_eq_bind, Option.bind_some]
      rfl
    · rw [Dominators.dominates, Dominators.tree?_eq_some he, Option.any_some]
      exact dominates_eq h.inverse hroot hs a b

end LoopFusion.Guarded
