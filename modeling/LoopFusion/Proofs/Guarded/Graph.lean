import LoopFusion.Proofs.Flow.VisitOrder
import LoopFusion.Proofs.Guarded.Tables

/-!
What the tables of the control-flow graph say. The two tables are one relation read both ways, and
the order of the search is one from which loops and dominators can be told.
-/

namespace LoopFusion.Guarded

open LoopFusion.Flow

/-- The graph `g` and the places of the blocks in its order tell the edges of `f`. -/
structure Charts (f : Func) (g : Cfg) (places : Array (Option Nat)) : Prop where
  size : g.succTable.size = f.blocks.size ∧ g.predTable.size = f.blocks.size
  succs_iff : ∀ a b, b ∈ g.succs a ↔ f.Edge a b
  inverse : ∀ a b, b ∈ g.succs a ↔ a ∈ g.preds b
  nodup_succs : ∀ b, (g.succs b).Nodup
  nodup_preds : ∀ b, (g.preds b).Nodup
  preds_eq : ∀ b, g.preds b = f.predecessors b
  head : g.order.head? = f.entry?
  nodup_order : g.order.Nodup
  mem_order : ∀ b, b ∈ g.order ↔ ∃ e, f.entry? = some e ∧ f.Leads e b
  position_iff : ∀ b i, position? places b = some i ↔ g.order[i]? = some b
  /-- An edge that does not lead forward in the order lies on a cycle. -/
  retreat : ∀ a b i j, f.Edge a b → position? places a = some i → position? places b = some j →
    j ≤ i → f.Leads b a
  earlier : ∀ e a b, f.entry? = some e → Dom f.Edge e a b → a ≠ b →
    ∃ i j, position? places a = some i ∧ position? places b = some j ∧ i < j

variable {f : Func}

theorem head_order (h : f.InArena) : (Cfg.ofFunc f).order.head? = f.entry? := by
  cases he : f.entry? with
  | none => rw [Cfg.order_eq_nil he, List.head?_nil]
  | some e =>
    rw [Cfg.order_ofFunc he, List.head?_eq_getElem?, ← Cfg.capacity_ofFunc]
    exact DomTree.order_zero (Dominators.regular h he)

theorem cfg_charts (h : Slotted f) (hn : f.layout.Nodup) :
    ∃ g places, cfg f = some (g, places) ∧ Charts f g places := by
  obtain ⟨places, hcfg, hplaces⟩ := cfg_eq h
  obtain ⟨hnodup, -⟩ := order_spec h
  have hposition : ∀ b i, position? places b = some i ↔ (Cfg.ofFunc f).order[i]? = some b := by
    intro b i
    rw [hplaces, Cfg.position?, idxOf?_eq_some_of_nodup hnodup]
  have hmem : ∀ b, b ∈ (Cfg.ofFunc f).order ↔ ∃ e, f.entry? = some e ∧ f.Leads e b := by
    intro b
    cases he : f.entry? with
    | none => simp [Cfg.order_eq_nil he]
    | some e => simp [Cfg.mem_order h.arena he]
  refine ⟨Cfg.ofFunc f, places, hcfg, ?_⟩
  constructor
  · exact ⟨size_succTableOf f, size_predTable f⟩
  · exact fun a b => Cfg.mem_succs
  · exact fun a b => Cfg.mem_succs.trans (Cfg.mem_preds_iff h.arena).symm
  · exact Cfg.nodup_succs f
  · exact Cfg.nodup_preds f
  · exact Cfg.preds_ofFunc h.arena hn
  · exact head_order h.arena
  · exact hnodup
  · exact hmem
  · exact hposition
  · intro a b i j hab ha hb hji
    rw [hposition] at ha hb
    obtain ⟨e, he, -⟩ := (hmem a).1 (List.mem_of_getElem? ha)
    exact Cfg.leads_of_retreat h.arena he hab ha hb hji
  · intro e a b he hd hne
    obtain ⟨i, j, hij, hi, hj⟩ := precedes_iff.1 (Cfg.precedes_of_dom h.arena he hd hne)
    exact ⟨i, j, (hposition a i).2 hi, (hposition b j).2 hj, hij⟩

theorem slotted_crossing : Slotted Dominators.crossing := by
  have hknown : ∀ b ∈ Dominators.crossing.layout, ∀ i ∈ Dominators.crossing.body b,
      (Dominators.crossing.inst? i).isSome := by
    decide +kernel
  exact ⟨Dominators.inArena_crossing, fun b hb i hi => Option.isSome_iff_exists.1 (hknown b hb i hi)⟩

theorem cfg_charts_crossing : Slotted Dominators.crossing ∧ Dominators.crossing.layout.Nodup ∧
    ∃ g places, cfg Dominators.crossing = some (g, places) ∧ Charts Dominators.crossing g places := by
  have hn : Dominators.crossing.layout.Nodup := by decide +kernel
  exact ⟨slotted_crossing, hn, cfg_charts slotted_crossing hn⟩

end LoopFusion.Guarded
