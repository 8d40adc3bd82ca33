import LoopFusion.Proofs.Flow.Gates
import LoopFusion.Proofs.Fusion.Checks

/-!
Where two loops lie that a checker accepts, whatever its engine and its oracle answer: the first is
left to the preheader of the second, control comes there in no other way, and nothing leads past
either loop.
-/

namespace LoopFusion

open Relation LoopFusion.Flow

/-- How a loop is entered and left, in the blocks that it has on record. -/
structure Loop.Gates (l : Loop) (f : Func) (e pre bodyHead exit : BlockId) : Prop
    extends f.Gated e l.header pre bodyHead exit where
  preheader : l.preheader? = some pre
  exits : only? l.exits = some exit

namespace Checker

variable {f : Func} {e pre m exit t t' : BlockId} {c : Checker} {a b l : Loop}

theorem splits_spec (h : splits l exit t t') :
    ∃ m, l.contains m ∧ (m = t ∧ exit = t' ∨ m = t' ∧ exit = t) := by
  rw [splits] at h
  split at h
  case isTrue ht => exact ⟨t, ht, .inl ⟨rfl, (of_decide_eq_true h).symm⟩⟩
  case isFalse =>
    rw [Bool.and_eq_true, decide_eq_true_eq] at h
    exact ⟨t', h.1, .inr ⟨rfl, h.2.symm⟩⟩

theorem Shaped.gates (hs : c.Shaped l) (hc : c.func = f) (hf : f.InArena)
    (he : f.entry? = some e) (hl : l ∈ f.forest.loops) : ∃ pre m exit, l.Gates f e pre m exit := by
  obtain ⟨exit, hexit, cond, t, t', hop, hsplit⟩ := hs.exit
  obtain ⟨m, hm, hbranch⟩ := splits_spec hsplit
  have hsimple := hs.simplified
  rw [Loop.isSimplified, Bool.and_eq_true, Bool.and_eq_true] at hsimple
  obtain ⟨pre, hpre⟩ := Option.isSome_iff_exists.1 hsimple.1.2
  obtain ⟨y, hy⟩ := (LoopForest.headed hf he hl).exists_edge
  refine ⟨pre, m, exit, LoopForest.gated hf he hl hpre hexit hs.exiting (fun y => ?_) hm, hpre,
    hexit⟩
  rw [Func.edge_iff hy.1 (hc ▸ hop)]
  rcases hbranch with ⟨rfl, rfl⟩ | ⟨rfl, rfl⟩
  · simp [Operation.targets]
  · simp [Operation.targets, or_comm]

/-- Two loops of a well-formed function that pass all checks. -/
structure Accepts (c : Checker) (f : Func) (e : BlockId) (a b : Loop) : Prop where
  wellFormed : f.WellFormed e
  facts : c.facts = .ofFunc f
  first : a ∈ f.forest.loops
  second : b ∈ f.forest.loops
  legal : ∃ s s', c.Legal a b s s'

namespace Accepts

variable {preA mA mid preB mB exitB q : BlockId} (h : c.Accepts f e a b)

include h

theorem inArena : f.InArena := h.wellFormed.inArena

theorem entry : f.entry? = some e := h.wellFormed.entry

theorem gates_first : ∃ pre m exit, a.Gates f e pre m exit := by
  obtain ⟨s, s', hl⟩ := h.legal
  exact hl.first.gates (by rw [func, h.facts]; rfl) h.inArena h.entry h.first

theorem gates_second : ∃ pre m exit, b.Gates f e pre m exit := by
  obtain ⟨s, s', hl⟩ := h.legal
  exact hl.second.gates (by rw [func, h.facts]; rfl) h.inArena h.entry h.second

theorem dom : Dom f.Edge e a.header b.header := by
  obtain ⟨s, s', hl⟩ := h.legal
  have hdom := hl.flow.1
  rw [h.facts] at hdom
  exact (Dominators.dominates_iff h.inArena h.entry).1 hdom

theorem postDom : PostDom f e b.header a.header := by
  obtain ⟨s, s', hl⟩ := h.legal
  have hpost := hl.flow.2
  rw [h.facts] at hpost
  exact (PostDominators.dominates_iff h.inArena h.entry).1 hpost

theorem entry?_eq (ga : a.Gates f e pre m exit) : b.entry? = some exit := by
  obtain ⟨s, s', hl⟩ := h.legal
  obtain ⟨entry, hentry, hall, -⟩ := hl.meets.entry
  obtain ⟨x, hx⟩ := List.exists_mem_of_ne_nil _ hl.meets.leaves
  have hexit : x = exit := by
    rw [LoopForest.nonLatchExits_eq h.first,
      Region.mem_nonLatchExits (LoopForest.region_is h.inArena h.entry h.first)] at hx
    obtain ⟨hout, y, ⟨hin, -⟩, hyx⟩ := hx
    exact (ga.leave y x hin hyx hout).2
  rw [hentry, ← hall x hx, hexit]

theorem exists_return (gb : b.Gates f e pre m exit) :
    ∃ r, f.Returns r ∧ f.Leads e r ∧ Walk f.Edge (· ≠ b.header) exit r := by
  obtain ⟨⟨r, hr, her, har⟩, hvis⟩ := h.postDom
  refine ⟨r, hr, her, ?_⟩
  rcases (Walk.ofReach har).firstVisit b.header with hw | ⟨-, hw⟩
  · exact absurd (hw.mono fun _ hx => hx.2) (hvis r hr her)
  · refine gb.walk_exit gb.header_in (fun hin => ?_) hw.reach
    obtain ⟨y, hy⟩ := hin.exists_edge
    exact hr.no_edge hy

/-- A loop that leaves to where it is entered never comes to a return. -/
theorem headers_ne : a.header ≠ b.header := by
  intro heq
  obtain rfl := LoopForest.eq_of_header h.inArena h.entry h.first h.second heq
  obtain ⟨pre, m, exit, ga⟩ := h.gates_first
  obtain ⟨r, hr, -, hw⟩ := h.exists_return ga
  have hentry := h.entry?_eq ga
  rw [Loop.entry?] at hentry
  cases hg : a.guard? with
  | none =>
    rw [hg, ga.preheader] at hentry
    obtain rfl := Option.some.inj hentry
    have : r = pre := by
      refine hw.stays (Q := (· = pre)) rfl ?_
      rintro x y rfl hxy hy
      exact absurd ((ga.leads y).1 hxy) hy
    exact hr.no_edge (this ▸ ga.preheader_edge)
  | some g =>
    rw [hg] at hentry
    obtain rfl := Option.some.inj hentry
    have hguards := LoopForest.guards h.inArena h.entry h.first ga.exits ga.preheader hg
    obtain ⟨exit, o, hexit, ho, hox⟩ := hguards.passes
    obtain rfl := Option.some.inj (hexit.symm.trans ga.exits)
    have hgd : ∀ y, f.Edge exit y → y = pre ∨ y = exit := by
      rcases hox with rfl | hbr
      · exact fun y hy => (ho y).1 hy
      · intro y hy
        have h₁ := (Func.edge_iff hy.1 hbr).1 hy
        have h₂ := (Func.edge_iff hy.1 hbr).1 hguards.edge
        exact .inl ((List.mem_singleton.1 h₁).trans (List.mem_singleton.1 h₂).symm)
    have : r = pre ∨ r = exit := by
      refine hw.stays (Q := fun x => x = pre ∨ x = exit) (.inr rfl) ?_
      rintro x y (rfl | rfl) hxy hy
      · exact absurd ((ga.leads y).1 hxy) hy
      · exact hgd y hxy
    rcases this with rfl | rfl
    · exact hr.no_edge ga.preheader_edge
    · exact hr.no_edge hguards.edge

theorem ne : a ≠ b := fun hab => h.headers_ne (congrArg Loop.header hab)

/-- The second header is on every way to a return, so it cannot be passed by. -/
theorem unguarded_second : b.guard? = none := by
  by_contra hne
  obtain ⟨g, hg⟩ := Option.ne_none_iff_exists'.1 hne
  obtain ⟨preA, mA, mid, ga⟩ := h.gates_first
  obtain ⟨preB, mB, exitB, gb⟩ := h.gates_second
  have hguards := LoopForest.guards h.inArena h.entry h.second gb.exits gb.preheader hg
  obtain ⟨exit, o, hexit, ho, hox⟩ := hguards.passes
  obtain rfl := Option.some.inj (hexit.symm.trans gb.exits)
  obtain ⟨r, hr, her, hw⟩ := h.exists_return gb
  have hmid : mid = g := by
    have := h.entry?_eq ga
    rw [Loop.entry?, hg] at this
    exact (Option.some.inj this).symm
  have hgb : g ≠ b.header := fun hgb => hguards.outside (hgb ▸ gb.header_in)
  have hor : Walk f.Edge (· ≠ b.header) o r := by
    rcases hox with rfl | hbr
    · exact hw
    · rcases hw.cases_head with rfl | ⟨y, hy, hw⟩
      · have := hr.2
        rw [hbr] at this
        cases this
      · have := (Func.edge_iff hy.1 hbr).1 hy
        rwa [List.mem_singleton.1 this] at hw
  have hgr : Walk f.Edge (· ≠ b.header) g r := .head hgb ((ho o).2 (.inr rfl)) hor
  exact h.postDom.visits r hr her (.head h.headers_ne (hmid ▸ ga.exit_edge) hgr)

theorem exists_gates : ∃ preA mA mid mB exitB,
    a.Gates f e preA mA mid ∧ b.Gates f e mid mB exitB := by
  obtain ⟨preA, mA, mid, ga⟩ := h.gates_first
  obtain ⟨preB, mB, exitB, gb⟩ := h.gates_second
  have hentry := h.entry?_eq ga
  rw [Loop.entry?, h.unguarded_second, gb.preheader] at hentry
  obtain rfl := Option.some.inj hentry
  exact ⟨preA, mA, preB, mB, exitB, ga, gb⟩

theorem siblings : a.parent? = b.parent? := by
  obtain ⟨s, s', hl⟩ := h.legal
  exact hl.siblings.1

theorem around_iff (hqa : q ≠ a.header) (hqb : q ≠ b.header) :
    f.InLoop e q a.header ↔ f.InLoop e q b.header := by
  have hsib := h.siblings
  cases hpar : a.parent? with
  | none =>
    have h₁ := (LoopForest.parent?_eq_none_iff h.inArena h.entry h.first).1 hpar q
    have h₂ := (LoopForest.parent?_eq_none_iff h.inArena h.entry h.second).1 (hsib ▸ hpar) q
    exact ⟨fun h => absurd (h₁ h) hqa, fun h => absurd (h₂ h) hqb⟩
  | some i =>
    obtain ⟨p, hp, rfl, h₁⟩ := LoopForest.exists_parent h.inArena h.entry h.first hpar
    have h₂ := (LoopForest.parent?_eq_some_iff h.inArena h.entry h.second hp).1 (hsib ▸ hpar)
    exact ⟨fun h => (h₁.least q h hqa).trans h₂.holds, fun h => (h₂.least q h hqb).trans h₁.holds⟩

section Between

variable (ga : a.Gates f e preA mA mid) (gb : b.Gates f e mid mB exitB)

include ga gb

theorem dom_mid : Dom f.Edge e a.header mid :=
  h.dom.pred h.headers_ne (ga.reach.tail ga.exit_edge) gb.preheader_edge

/-- Another way to the second preheader would go round a loop that holds only the second. -/
theorem alone (hq : f.Leads e q) (hqm : f.Edge q mid) : q = a.header := by
  by_contra hne
  have hdm := dom_mid h ga gb
  have ham := ga.exit_ne.symm
  have hdq : Dom f.Edge e a.header q := hdm.pred ham hq hqm
  have hout : ¬ f.InLoop e a.header q := fun hin =>
    hne (ga.leave q _ hin hqm ga.exit_out).1
  have hmq : Dom f.Edge e mid q := by
    refine ⟨hq, fun hw => ?_⟩
    rcases hw.lastVisit a.header with hw | ⟨-, heq | ⟨y, hy, hw⟩⟩
    · exact hdq.2 (hw.mono fun _ hx => hx.2)
    · exact hne heq.symm
    · rcases (ga.branch y).1 hy with rfl | rfl
      · exact hout (ga.stay ga.bodyHead_in (hw.mono fun _ hx => hx.2))
      · exact hw.first.1 rfl
  have hback : f.Back e q mid := ⟨hqm, hmq⟩
  have hqne : q ≠ mid := by
    rintro rfl
    exact gb.preheader_ne ((gb.leads _).1 hqm)
  obtain ⟨y, hy, hw⟩ := hback.inLoop.from_header hqne
  obtain rfl := (gb.leads y).1 hy
  have := (h.around_iff ham.symm gb.preheader_ne).2 hw.first.1
  exact ham (hdm.antisymm this.dom)

end Between

end Accepts

end Checker

end LoopFusion
