import LoopFusion.Proofs.Flow.Walk

/-!
Natural loops of a graph with a root. The loop of a header holds what reaches the source of a back
edge without the header. Two loops that meet are nested.
-/

namespace LoopFusion.Flow

open Relation

variable {ν : Type} {E : ν → ν → Prop} {r h h' l x y : ν}

/-- An edge to a node that dominates its source. -/
structure Back (E : ν → ν → Prop) (r l h : ν) : Prop where
  edge : E l h
  dom : Dom E r h l

/-- The loop of the header `h` holds `x`. -/
def InLoop (E : ν → ν → Prop) (r h x : ν) : Prop :=
  ∃ l, Back E r l h ∧ (x = h ∨ ReflTransGen E r x ∧ Walk E (· ≠ h) x l)

theorem Back.inLoop (hb : Back E r l h) : InLoop E r h l := by
  by_cases hl : l = h
  · exact ⟨l, hb, .inl hl⟩
  · exact ⟨l, hb, .inr ⟨hb.dom.1, .refl hl⟩⟩

namespace InLoop

theorem header (hx : InLoop E r h x) : InLoop E r h h := by
  obtain ⟨l, hb, -⟩ := hx
  exact ⟨l, hb, .inl rfl⟩

theorem dom (hx : InLoop E r h x) : Dom E r h x := by
  obtain ⟨l, hb, rfl | ⟨hr, hw⟩⟩ := hx
  · exact .of_reach hb.dom.reach_left
  · exact hb.dom.of_step hr hw

theorem reach (hx : InLoop E r h x) : ReflTransGen E r x := hx.dom.1

theorem back (hy : InLoop E r h y) (hne : y ≠ h) (hr : ReflTransGen E r x) (he : E x y) :
    InLoop E r h x := by
  obtain ⟨l, hb, rfl | ⟨-, hw⟩⟩ := hy
  · exact absurd rfl hne
  · by_cases hx : x = h
    · exact ⟨l, hb, .inl hx⟩
    · exact ⟨l, hb, .inr ⟨hr, .head hx he hw⟩⟩

theorem walk_back_imp {P : ν → Prop} (hy : InLoop E r h y) (hr : ReflTransGen E r x)
    (hw : Walk E (fun z => P z ∧ z ≠ h) x y) :
    Walk E (fun z => P z ∧ InLoop E r h z ∧ z ≠ h) x y := by
  induction hw with
  | refl hx => exact .refl ⟨hx.1, hy, hx.2⟩
  | @tail y z hw he hz ih =>
    have := hy.back hz.2 (hr.trans hw.reach) he
    exact .tail (ih this) he ⟨hz.1, hy, hz.2⟩

theorem walk_back (hy : InLoop E r h y) (hr : ReflTransGen E r x) (hw : Walk E (· ≠ h) x y) :
    Walk E (fun z => InLoop E r h z ∧ z ≠ h) x y :=
  (hy.walk_back_imp hr (hw.mono fun _ hz => ⟨True.intro, hz⟩)).mono fun _ hz => hz.2

theorem from_header (hx : InLoop E r h x) (hne : x ≠ h) :
    ∃ y, E h y ∧ Walk E (fun z => InLoop E r h z ∧ z ≠ h) y x := by
  rcases (Walk.ofReach hx.dom.1).lastVisit h with hw | ⟨hrh, rfl | ⟨y, hy, hw⟩⟩
  · exact absurd (hw.mono fun _ hz => hz.2) hx.dom.2
  · exact absurd rfl hne
  · exact ⟨y, hy, hx.walk_back (hrh.reach.tail hy) (hw.mono fun _ hz => hz.2)⟩

theorem to_latch (hx : InLoop E r h x) (hne : x ≠ h) :
    ∃ l, Back E r l h ∧ Walk E (fun z => InLoop E r h z ∧ z ≠ h) x l := by
  obtain ⟨l, hb, rfl | ⟨hr, hw⟩⟩ := hx
  · exact absurd rfl hne
  · exact ⟨l, hb, hb.inLoop.walk_back hr hw⟩

theorem exists_edge (hx : InLoop E r h x) : ∃ y, E x y := by
  by_cases hne : x = h
  · obtain ⟨l, hb, -⟩ := hx
    by_cases hl : l = h
    · exact ⟨h, by simpa [hne, hl] using hb.edge⟩
    · obtain ⟨y, hy, -⟩ := hb.inLoop.from_header hl
      exact ⟨y, hne ▸ hy⟩
  · obtain ⟨l, hb, hw⟩ := hx.to_latch hne
    rcases hw.reach.cases_head with rfl | ⟨y, hy, -⟩
    · exact ⟨h, hb.edge⟩
    · exact ⟨y, hy⟩

/-- Of two loops that meet, the one whose header dominates holds the other's header. -/
theorem of_dom (hx : InLoop E r h x) (hx' : InLoop E r h' x) (hd : Dom E r h h') :
    InLoop E r h h' := by
  by_cases hne : h = h'
  · exact hne ▸ hx.header
  by_cases hxh' : x = h'
  · exact hxh' ▸ hx
  obtain ⟨y, hy, hw⟩ := hx'.from_header hxh'
  -- the other header dominates all of its loop, so this header is not in there
  have hw' : Walk E (· ≠ h) h' x :=
    .head (Ne.symm hne) hy (hw.mono fun z hz he => hne (hd.antisymm (he ▸ hz.1.dom)))
  exact ((hx.walk_back hd.1 hw').first).1

theorem trans (hx : InLoop E r h h') (hx' : InLoop E r h' x) : InLoop E r h x := by
  by_cases hne : h = h'
  · exact hne ▸ hx'
  by_cases hxh' : x = h'
  · exact hxh' ▸ hx
  obtain ⟨l, hb, hw⟩ := hx'.to_latch hxh'
  have hw' : Walk E (· ≠ h) x h' :=
    .tail (hw.mono fun z hz he => hne (hx.dom.antisymm (he ▸ hz.1.dom))) hb.edge (Ne.symm hne)
  exact ((hx.walk_back hx'.reach hw').first).1

theorem antisymm (hx : InLoop E r h h') (hx' : InLoop E r h' h) : h = h' :=
  hx.dom.antisymm hx'.dom

/-- The header of the outer of two loops is not in the inner one. -/
theorem inner (hx : InLoop E r h h') (hne : h ≠ h') (hx' : InLoop E r h' x) :
    InLoop E r h x ∧ x ≠ h := by
  refine ⟨hx.trans hx', ?_⟩
  rintro rfl
  exact hne (hx.antisymm hx')

/-- Loops that meet are nested. -/
theorem nested (hx : InLoop E r h x) (hx' : InLoop E r h' x) :
    InLoop E r h h' ∨ InLoop E r h' h :=
  (hx.dom.total hx'.dom).imp (hx.of_dom hx') (hx'.of_dom hx)

theorem dom_entering {p : ν} (hh : InLoop E r h h) (hne : r ≠ h)
    (hp : ∀ q, E q h → ¬ InLoop E r h q → q = p) : Dom E r p h := by
  refine ⟨hh.reach, fun hw => ?_⟩
  rcases hw.firstVisit h with hw | ⟨heq | ⟨q, hw, hq⟩, -⟩
  · exact hw.last.2 rfl
  · exact hne heq
  · exact hw.last.1 (hp q hq fun hin => hin.dom.2 (hw.mono fun _ hz => hz.2))

/-- What dominates a node of the loop from outside dominates the header. -/
theorem dom_of_outside {d : ν} (hx : InLoop E r h x) (hd : Dom E r d x)
    (hout : ¬ InLoop E r h d) : Dom E r d h := by
  refine ⟨hx.header.reach, fun hw => hd.2 ?_⟩
  by_cases hxh : x = h
  · exact hxh ▸ hw
  · obtain ⟨y, hy, hw'⟩ := hx.from_header hxh
    have hw' : Walk E (· ≠ d) y x := hw'.mono fun z hz he => hout (he ▸ hz.1)
    exact (Walk.tail hw hy hw'.first).trans hw'

end InLoop

end LoopFusion.Flow
