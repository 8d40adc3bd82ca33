import LoopFusion.Proofs.Flow.Gates

/-!
Loops that stand in one piece. When every block can be entered from an earlier one, and a piece of
the order is entered at its first block only and leads to its last one, which leads back to the
first, then that piece is the natural loop of its first block.
-/

namespace LoopFusion

open Relation LoopFusion.Flow

/-- Blocks at different positions, each but the entry entered from an earlier one. -/
structure Func.Staged (f : Func) (e : BlockId) (pos : BlockId → Nat) : Prop where
  entry : f.entry? = some e
  inArena : f.InArena
  closed : ∀ x y, f.Edge x y → y ∈ f.layout
  inj : ∀ x ∈ f.layout, ∀ y ∈ f.layout, pos x = pos y → x = y
  descend : ∀ x ∈ f.layout, x ≠ e → ∃ y, f.Edge y x ∧ pos y < pos x

/-- The blocks from `h` up to `l` are entered at `h` and lead to `l`, and `l` back to `h`. -/
structure Func.Span (f : Func) (e : BlockId) (pos : BlockId → Nat) (h l : BlockId) : Prop where
  back : f.Edge l h
  entry : pos e < pos h
  le : pos h ≤ pos l
  enter : ∀ x y, f.Edge x y → ¬ (pos h ≤ pos x ∧ pos x ≤ pos l) → pos h ≤ pos y → pos y ≤ pos l →
    y = h
  only : ∀ x, f.Edge x h → pos h ≤ pos x → x = l
  onward : ∀ x ∈ f.layout, pos h < pos x → pos x < pos l →
    ∃ y, Walk f.Edge (· ≠ h) x y ∧ pos x < pos y ∧ pos y ≤ pos l

namespace Func.Staged

variable {f : Func} {e a x y : BlockId} {pos : BlockId → Nat} (hst : f.Staged e pos)

include hst

theorem mem_layout_of_leads (hx : x ∈ f.layout) (h : f.Leads x y) : y ∈ f.layout := by
  cases h with
  | refl => exact hx
  | tail _ h => exact hst.closed _ _ h

theorem walk (hx : x ∈ f.layout) : Walk f.Edge (pos · ≤ pos x) e x := by
  induction hn : pos x using Nat.strong_induction_on generalizing x with
  | _ n ih =>
    subst hn
    by_cases he : x = e
    · subst he
      exact .refl (Nat.le_refl _)
    · obtain ⟨y, hy, hlt⟩ := hst.descend x hx he
      exact .tail ((ih _ hlt hy.1 rfl).mono fun z hz => hz.trans hlt.le) hy (Nat.le_refl _)

theorem leads (hx : x ∈ f.layout) : f.Leads e x := (hst.walk hx).reach

theorem le_of_dom (h : Dom f.Edge e a x) (hx : x ∈ f.layout) : pos a ≤ pos x := by
  by_contra hlt
  exact h.2 ((hst.walk hx).mono fun z hz he => hlt (he ▸ hz))

theorem dom_of_only (hx : x ∈ f.layout) (hne : x ≠ e) (honly : ∀ z, f.Edge z x → z = y)
    (ha : Dom f.Edge e a y) : Dom f.Edge e a x :=
  .of_preds (hst.leads hx) hne fun z _ hz => honly z hz ▸ ha

end Func.Staged

namespace Func.Span

variable {f : Func} {e h l x : BlockId} {pos : BlockId → Nat} (hs : f.Span e pos h l)
  (hst : f.Staged e pos)

include hs

theorem outside {y z : BlockId} (hw : Walk f.Edge (· ≠ h) y z)
    (hy : ¬ (pos h ≤ pos y ∧ pos y ≤ pos l)) : ¬ (pos h ≤ pos z ∧ pos z ≤ pos l) := by
  induction hw with
  | refl => exact hy
  | tail _ hyz hz ih => exact fun hin => hz (hs.enter _ _ hyz ih hin.1 hin.2)

include hst

theorem dom (hx : x ∈ f.layout) (hle : pos h ≤ pos x) (hle' : pos x ≤ pos l) :
    Dom f.Edge e h x := by
  refine ⟨hst.leads hx, fun hw => hs.outside hw ?_ ⟨hle, hle'⟩⟩
  have := hs.entry
  omega

theorem back_iff : f.Back e x h ↔ x = l := by
  constructor
  · intro hb
    exact hs.only x hb.edge (hst.le_of_dom hb.dom hb.edge.1)
  · rintro rfl
    exact ⟨hs.back, hs.dom hst hs.back.1 hs.le (Nat.le_refl _)⟩

theorem walk_latch (hx : x ∈ f.layout) (hlt : pos h < pos x) (hle : pos x ≤ pos l) :
    Walk f.Edge (· ≠ h) x l := by
  induction hn : pos l - pos x using Nat.strong_induction_on generalizing x with
  | _ n ih =>
    have hne : x ≠ h := fun he => Nat.lt_irrefl _ (he ▸ hlt)
    by_cases hl : pos x = pos l
    · rw [hst.inj x hx l hs.back.1 hl]
      exact .refl fun he => hne ((hst.inj x hx l hs.back.1 hl).trans he)
    · obtain ⟨y, hw, hlt', hle'⟩ := hs.onward x hx hlt (by omega)
      exact hw.trans (ih _ (by omega) (hst.mem_layout_of_leads hx hw.reach) (by omega) hle' rfl)

theorem inLoop_iff : f.InLoop e h x ↔ x ∈ f.layout ∧ pos h ≤ pos x ∧ pos x ≤ pos l := by
  constructor
  · intro hx
    obtain ⟨y, hy⟩ := hx.exists_edge
    refine ⟨hy.1, ?_⟩
    by_contra hout
    have hne : x ≠ h := by
      rintro rfl
      exact hout ⟨Nat.le_refl _, hs.le⟩
    obtain ⟨z, hb, hw⟩ := hx.to_latch hne
    rw [(hs.back_iff hst).1 hb] at hw
    exact hs.outside (hw.mono fun _ hz => hz.2) hout ⟨hs.le, Nat.le_refl _⟩
  · rintro ⟨hx, hle, hle'⟩
    have hb := (hs.back_iff hst).2 rfl
    by_cases he : pos x = pos h
    · exact ⟨l, hb, .inl (hst.inj x hx h (hst.closed _ _ hs.back) he)⟩
    · exact ⟨l, hb, .inr ⟨hst.leads hx, hs.walk_latch hst hx (by omega) hle'⟩⟩

end Func.Span

end LoopFusion
