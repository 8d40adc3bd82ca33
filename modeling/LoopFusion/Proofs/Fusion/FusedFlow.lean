import LoopFusion.Proofs.Fusion.Rewired

/-!
The graph of the fused function: four edges are new, and what dominates a block that stays still
does.
-/

namespace LoopFusion

open Relation LoopFusion.Flow

theorem Flow.Dom.before {ν : Type} {E : ν → ν → Prop} {P : ν → Prop} {r a b : ν} (h : Dom E r a b)
    (hw : Walk E P r b) : Walk E P r a := by
  rcases hw.lastVisit a with hw | ⟨hw, -⟩
  · exact absurd (hw.mono fun _ hx => hx.2) h.2
  · exact hw

namespace FusionPlan

variable {p : FusionPlan} {f : Func} {e a b c d q x y : BlockId}

theorem retarget_entry (hb : b = p.first.header ∨ b ∈ p.redirected) :
    p.retarget b p.second.preheader = p.second.exit := by
  rw [retarget, if_pos hb, replace, if_pos rfl]

theorem retarget_firstTail (hp : p.Fits f e) :
    p.retarget p.first.bodyTail p.first.latch = p.second.bodyHead := by
  rw [retarget, if_neg, if_pos rfl, replace, if_pos rfl]
  exact not_or.2 ⟨hp.first.bodyTail_ne, hp.not_redirected_first hp.first.tail_in⟩

theorem retarget_secondTail (hp : p.Fits f e) :
    p.retarget p.second.bodyTail p.second.latch = p.first.latch := by
  rw [retarget, if_neg, if_neg hp.bodyTails_ne.symm, if_pos rfl, replace, if_pos rfl]
  exact not_or.2 ⟨hp.second_tail_ne, hp.not_redirected_second hp.second.tail_in⟩

theorem retarget_eq_self
    (h₁ : b = p.first.header ∨ b ∈ p.redirected → c ≠ p.second.preheader)
    (h₂ : b = p.first.bodyTail → c ≠ p.first.latch)
    (h₃ : b = p.second.bodyTail → c ≠ p.second.latch) : p.retarget b c = c := by
  rw [retarget]
  split
  case isTrue hb => exact if_neg (h₁ hb)
  case isFalse =>
    split
    case isTrue hb => exact if_neg (h₂ hb)
    case isFalse =>
      split
      case isTrue hb => exact if_neg (h₃ hb)
      case isFalse => rfl

theorem relabel_bodyHead (p : FusionPlan) :
    p.relabel p.second.bodyHead p.second.header = p.first.bodyTail := by
  rw [relabel, if_pos rfl, replace, if_pos rfl]

theorem relabel_eq_self (h₁ : b = p.second.bodyHead → q ≠ p.second.header)
    (h₂ : b = p.first.latch → q ≠ p.first.bodyTail) : p.relabel b q = q := by
  rw [relabel]
  split
  case isTrue hb => exact if_neg (h₁ hb)
  case isFalse =>
    split
    case isTrue hb => exact if_neg (h₂ hb)
    case isFalse => rfl

variable (hw : f.WellFormed e) (hp : p.Fits f e)

include hw hp

theorem edge_fused : (p.fused f).Edge a b ↔
    a ∉ p.retired ∧ ∃ c, f.Edge a c ∧ p.retarget a c = b := by
  rw [Func.Edge, mem_layout_fused hw hp]
  by_cases ha : a ∈ f.layout
  · by_cases hr : a ∈ p.retired
    · simp [hr]
    · have hne : a ≠ p.second.header := by
        rintro rfl
        exact hr (by simp [hp.retired])
      rw [successors_fused hw hp ha hne, List.mem_map]
      simp [ha, hr, Func.Edge]
  · simp [ha, Func.Edge]

/-- What entered the second loop does so no more, and the two bodies are chained. -/
theorem edge_fused_iff : (p.fused f).Edge a b ↔
    a = p.first.header ∧ b = p.second.exit ∨
    a = p.first.bodyTail ∧ b = p.second.bodyHead ∨
    a = p.second.bodyTail ∧ b = p.first.latch ∨
    a ∈ p.redirected ∧ b = p.second.exit ∨
    f.Edge a b ∧ a ∉ p.retired ∧ b ∉ p.retired ∧ b ≠ p.first.latch := by
  rw [edge_fused hw hp]
  constructor
  · rintro ⟨hr, c, hac, rfl⟩
    by_cases h₁ : (a = p.first.header ∨ a ∈ p.redirected) ∧ c = p.second.preheader
    · obtain ⟨ha, rfl⟩ := h₁
      rw [retarget_entry ha]
      exact ha.elim (fun ha => .inl ⟨ha, rfl⟩) fun ha => .inr (.inr (.inr (.inl ⟨ha, rfl⟩)))
    by_cases h₂ : a = p.first.bodyTail ∧ c = p.first.latch
    · obtain ⟨rfl, rfl⟩ := h₂
      exact .inr (.inl ⟨rfl, retarget_firstTail hp⟩)
    by_cases h₃ : a = p.second.bodyTail ∧ c = p.second.latch
    · obtain ⟨rfl, rfl⟩ := h₃
      exact .inr (.inr (.inl ⟨rfl, retarget_secondTail hp⟩))
    rw [not_and] at h₁ h₂ h₃
    rw [retarget_eq_self h₁ h₂ h₃]
    -- an edge that is not redirected leads to a block that stays
    refine .inr (.inr (.inr (.inr ⟨hac, hr, fun hc => ?_, fun hc => ?_⟩)))
    · rcases hp.into_retired hac hr hc with ⟨hc, ha⟩ | ⟨hc, ha⟩
      · exact h₁ ha hc
      · exact h₃ ha hc
    · exact h₂ ((hp.first.tail a).1 (hc ▸ hac)) hc
  · rintro (⟨rfl, rfl⟩ | ⟨rfl, rfl⟩ | ⟨rfl, rfl⟩ | ⟨ha, rfl⟩ | ⟨hab, hra, hrb, hne⟩)
    · exact ⟨hp.not_retired_first hp.first.header_in, _, hp.exit_edge, retarget_entry (.inl rfl)⟩
    · exact ⟨hp.not_retired_first hp.first.tail_in, _, hp.first.tail_edge, retarget_firstTail hp⟩
    · exact ⟨hp.not_retired_body hp.bodyTail_mem, _, hp.second.tail_edge, retarget_secondTail hp⟩
    · obtain ⟨hedge, -, hr⟩ := (hp.redirected a).1 ha
      exact ⟨hr, _, hedge, retarget_entry (.inr ha)⟩
    · rw [hp.mem_retired, not_or, not_or] at hrb
      exact ⟨hra, b, hab, retarget_eq_self (fun _ => hrb.1) (fun _ => hne) fun _ => hrb.2.2⟩

/-- A walk to a block of the second body passes the tail of the first. -/
theorem walk_of_fused {P : BlockId → Prop} (hP : ∀ x ∈ p.retired, P x)
    (h : Walk (p.fused f).Edge P e x) : Walk f.Edge P e x ∧
      (f.InLoop e p.second.header x → Walk f.Edge P e p.first.bodyTail) := by
  have hpre : P p.second.preheader := hP _ (hp.mem_retired.2 (.inl rfl))
  have hhead : P p.second.header := hP _ (hp.mem_retired.2 (.inr (.inl rfl)))
  have henter : ∀ {y}, Walk f.Edge P e p.first.header → f.Edge p.second.header y → P y →
      Walk f.Edge P e y := fun hwa he hy =>
    .tail (.tail (.tail hwa hp.exit_edge hpre) hp.second.preheader_edge hhead) he hy
  induction h with
  | refl he =>
    refine ⟨.refl he, fun hin => absurd (.refl fun heq => ?_) hin.dom.2⟩
    exact entry_not_retired hw hp (hp.mem_retired.2 (.inr (.inl heq)))
  | @tail x y hxy he hy ih =>
    obtain ⟨hwx, hbx⟩ := ih
    rcases (edge_fused_iff hw hp).1 he with ⟨rfl, rfl⟩ | ⟨rfl, rfl⟩ | ⟨rfl, rfl⟩ | ⟨hx, rfl⟩ |
      ⟨hedge, hxr, hyr, -⟩
    · exact ⟨henter hwx hp.second.exit_edge hy, fun hin => absurd hin hp.second.exit_out⟩
    · exact ⟨henter (hp.first.tail_in.dom.before hwx) hp.second.bodyHead_edge hy, fun _ => hwx⟩
    · refine ⟨.tail (hbx hp.second.tail_in) hp.first.tail_edge hy, fun hin => ?_⟩
      exact absurd hin (hp.apart _ hp.first.latch_in)
    · exact absurd hx (hp.not_redirected_of_reach hwx.reach)
    · refine ⟨.tail hwx hedge hy, fun hin => hbx (hin.back ?_ hwx.reach hedge)⟩
      exact fun heq => hyr (hp.mem_retired.2 (.inr (.inl heq)))

theorem leads_of_fused (h : (p.fused f).Leads e x) : f.Leads e x :=
  (walk_of_fused hw hp (fun _ _ => trivial) (.ofReach h)).1.reach

theorem dom_fused (hd : d ∉ p.retired) (hx : (p.fused f).Leads e x) (h : Dom f.Edge e d x) :
    Dom (p.fused f).Edge e d x := by
  refine ⟨hx, fun hwx => h.2 (walk_of_fused hw hp (fun r hr => ?_) hwx).1⟩
  rintro rfl
  exact hd hr

theorem dom_first_header (hx : (p.fused f).Leads e x) (h : Dom f.Edge e p.second.header x) :
    Dom (p.fused f).Edge e p.first.header x :=
  dom_fused hw hp (hp.not_retired_first hp.first.header_in) hx (hp.dom.trans h)

omit hw in
theorem dom_of_dom_second (hd : d ∉ p.retired) (h : Dom f.Edge e d p.second.header) :
    Dom f.Edge e d p.first.header := by
  have hne : ∀ {r}, r ∈ p.retired → d ≠ r := by
    rintro r hr rfl
    exact hd hr
  have hpre : Dom f.Edge e d p.second.preheader :=
    h.pred (hne (hp.mem_retired.2 (.inr (.inl rfl)))) hp.preheader_reach hp.second.preheader_edge
  exact hpre.pred (hne (hp.mem_retired.2 (.inl rfl))) hp.first.reach hp.exit_edge

end FusionPlan

end LoopFusion
