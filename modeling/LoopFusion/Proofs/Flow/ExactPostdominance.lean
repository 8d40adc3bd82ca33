import LoopFusion.Proofs.Flow.ExactDominance

/-!
The tree of postdominators is exact. A block stands above another exactly if there is a way from
the other to a return that control can come to, and all those ways lead through it. Code that
control never comes to has no part in this, though it may have edges into code that runs.
-/

namespace LoopFusion

open Relation LoopFusion.Flow

variable {f f' : Func} {e a b c : BlockId}

namespace Func

/-- Wherever control comes in `f` the other function has the same code. -/
def AgreesFrom (f : Func) (e : BlockId) (f' : Func) : Prop :=
  ∀ b, f.Leads e b → (b ∈ f'.layout ↔ b ∈ f.layout) ∧ f'.exitOp? b = f.exitOp? b

namespace AgreesFrom

variable (h : f.AgreesFrom e f')

include h

theorem edge_iff (ha : f.Leads e a) : f'.Edge a b ↔ f.Edge a b := by
  obtain ⟨hlay, hexit⟩ := h a ha
  rw [Func.Edge, Func.Edge, hlay, successors, successors, hexit]

theorem returns_iff (hb : f.Leads e b) : f'.Returns b ↔ f.Returns b := by
  obtain ⟨hlay, hexit⟩ := h b hb
  rw [Func.Returns, Func.Returns, hlay, hexit]

theorem walk {P : BlockId → Prop} (ha : f.Leads e a) (hw : Walk f.Edge P a b) :
    Walk f'.Edge P a b := by
  have hboth : Walk f'.Edge (fun x => P x ∧ f.Leads e x) a b := by
    apply hw.imp ⟨hw.first, ha⟩
    intro x y _ hx hxy hy
    exact ⟨(h.edge_iff hx.2).2 hxy, hy, hx.2.tail hxy⟩
  exact hboth.mono fun x hx => hx.1

theorem leads (hb : f.Leads e b) : f'.Leads e b := (h.walk .refl (.ofReach hb)).reach

theorem leads_iff : f'.Leads e b ↔ f.Leads e b := by
  refine ⟨fun hb => ?_, h.leads⟩
  induction hb with
  | refl => exact .refl
  | tail _ hxy ih => exact ih.tail ((h.edge_iff ih).1 hxy)

theorem symm : f'.AgreesFrom e f := by
  intro b hb
  obtain ⟨hlay, hexit⟩ := h b (h.leads_iff.1 hb)
  exact ⟨hlay.symm, hexit.symm⟩

theorem postDom (hb : f.Leads e b) (hp : PostDom f e a b) : PostDom f' e a b := by
  obtain ⟨⟨r, hr, her, hbr⟩, hvisits⟩ := hp
  constructor
  · exact ⟨r, (h.returns_iff her).2 hr, h.leads her, (h.walk hb (.ofReach hbr)).reach⟩
  · intro r hr her hw
    have her' := h.leads_iff.1 her
    exact hvisits r ((h.returns_iff her').1 hr) her' (h.symm.walk (h.leads hb) hw)

theorem postDom_iff (hb : f.Leads e b) : PostDom f' e a b ↔ PostDom f e a b :=
  ⟨h.symm.postDom (h.leads hb), h.postDom hb⟩

end AgreesFrom

end Func

/-- Control comes to a postdominator if it comes to the block at all. -/
theorem PostDom.leads (h : PostDom f e a b) (hb : f.Leads e b) : f.Leads e a := by
  obtain ⟨⟨r, hr, her, hbr⟩, hvisits⟩ := h
  rcases (Walk.ofReach hbr).lastVisit a with hw | ⟨hw, -⟩
  · exact absurd (hw.mono fun _ hx => hx.2) (hvisits r hr her)
  · exact hb.trans hw.reach

theorem postDom_iff_path : PostDom f e a b ↔
    (∃ r, f.Returns r ∧ f.Leads e r ∧ f.Leads b r) ∧
      ∀ r, f.Returns r → f.Leads e r → ∀ p, Path f.Edge b r p → a ∈ p := by
  simp only [← not_walk_iff_path]
  exact ⟨fun h => ⟨h.returns, h.visits⟩, fun h => ⟨h.1, h.2⟩⟩

namespace PostDominators

section

variable (hf : f.InArena) (he : f.entry? = some e)

include hf he

theorem dom_some : Dom (Edge (reversed (Cfg.ofFunc f)).succs) none (some a) (some b) ↔
    PostDom f e a b := by
  rw [← dominates_iff hf he, dominates, ofCfg]
  exact (DomTree.dominates_iff (regular hf he)).symm

theorem idom?_eq_some {x : Option BlockId} :
    (ofCfg (Cfg.ofFunc f)).tree.idom? (some b) = some x ↔
      Immediate (Edge (reversed (Cfg.ofFunc f)).succs) none x (some b) :=
  DomTree.idom?_eq_some (regular hf he)

theorem ipdom?_eq_some : (ofCfg (Cfg.ofFunc f)).ipdom? b = some a ↔
    (a ≠ b ∧ PostDom f e a b) ∧ ∀ c, c ≠ b → PostDom f e c b → PostDom f e c a := by
  rw [ipdom?, Option.join_eq_some_iff, idom?_eq_some hf he]
  simp only [← dom_some hf he]
  constructor
  · intro h
    refine ⟨⟨fun hab => h.ne (congrArg some hab), h.dom⟩, fun c hcb hc => ?_⟩
    exact h.last (some c) hc fun hcb' => hcb (Option.some.inj hcb')
  · rintro ⟨⟨hab, hdom⟩, hlast⟩
    refine ⟨hdom, fun hab' => hab (Option.some.inj hab'), fun c hc hcb => ?_⟩
    cases c with
    | none => exact .root hdom.reach_left
    | some c => exact hlast c (fun hcb' => hcb (congrArg some hcb')) hc

/-- A block without a parent among the blocks stands right below the virtual exit, or it has no
place in the tree. -/
theorem ipdom?_eq_none :
    (ofCfg (Cfg.ofFunc f)).ipdom? b = none ↔ ∀ a, a ≠ b → ¬ PostDom f e a b := by
  constructor
  · intro h a hab hp
    have hdom := (dom_some hf he).2 hp
    obtain ⟨x, hx, him⟩ := DomTree.exists_idom (regular hf he) hdom.1 (Option.some_ne_none b)
    cases x with
    | none =>
      have hroot := him.last (some a) hdom fun hab' => hab (Option.some.inj hab')
      cases hroot.eq_root
    | some c =>
      have hc : (ofCfg (Cfg.ofFunc f)).ipdom? b = some c := Option.join_eq_some_iff.2 hx
      rw [h] at hc
      cases hc
  · intro h
    by_contra hn
    obtain ⟨a, ha⟩ := Option.ne_none_iff_exists'.1 hn
    obtain ⟨⟨hab, hp⟩, -⟩ := (ipdom?_eq_some hf he).1 ha
    exact h a hab hp

theorem ends : ∃ s, Explores (reversed (Cfg.ofFunc f)).succs ⟨[], []⟩ [none] s ∧
    (ofCfg (Cfg.ofFunc f)).tree.order = s.order ∧
      Parents.Settles (DomTree.numberedPreds (reversed (Cfg.ofFunc f)).preds s.order)
        (.initial s.order.length) (ofCfg (Cfg.ofFunc f)).tree.parents :=
  ⟨_, explores_reversePostorder (regular hf he), rfl, DomTree.settles (regular hf he)⟩

end

section

variable (hf : f.InArena) (hf' : f'.InArena) (he : f.entry? = some e) (he' : f'.entry? = some e)
  (h : f.AgreesFrom e f') (hb : f.Leads e b)

include hf hf' he he' h hb

theorem dominates_congr :
    (ofCfg (Cfg.ofFunc f')).dominates a b = (ofCfg (Cfg.ofFunc f)).dominates a b := by
  rw [Bool.eq_iff_iff, dominates_iff hf' he', dominates_iff hf he, h.postDom_iff hb]

theorem ipdom?_congr : (ofCfg (Cfg.ofFunc f')).ipdom? b = (ofCfg (Cfg.ofFunc f)).ipdom? b := by
  ext a
  rw [ipdom?_eq_some hf' he', ipdom?_eq_some hf he, h.postDom_iff hb]
  apply and_congr_right
  rintro ⟨-, hp⟩
  simp only [h.postDom_iff hb, h.postDom_iff (hp.leads hb)]

end

/-- What there is to say about the postdominators of a function with entry `e`, by the paths of
its graph alone. -/
structure Precise (f : Func) (e : BlockId) (d : PostDominators) : Prop where
  ends : ∃ s, Explores (reversed (Cfg.ofFunc f)).succs ⟨[], []⟩ [none] s ∧ d.tree.order = s.order ∧
    Parents.Settles (DomTree.numberedPreds (reversed (Cfg.ofFunc f)).preds s.order)
      (.initial s.order.length) d.tree.parents
  dominates : ∀ a b, d.dominates a b ↔
    (∃ r, f.Returns r ∧ f.Leads e r ∧ f.Leads b r) ∧
      ∀ r, f.Returns r → f.Leads e r → ∀ p, Path f.Edge b r p → a ∈ p
  nearest : ∀ a b, d.ipdom? b = some a ↔
    (a ≠ b ∧ d.dominates a b) ∧ ∀ c, c ≠ b → d.dominates c b → d.dominates c a
  onlyExit : ∀ b, d.ipdom? b = none ↔ ∀ a, a ≠ b → ¬ d.dominates a b
  endless : ∀ b, (∀ r, f.Returns r → f.Leads e r → ¬ f.Leads b r) →
    (∀ a, ¬ d.dominates a b) ∧ d.ipdom? b = none
  /-- Code that control never comes to may be anything. -/
  dead : ∀ f', f'.InArena → f'.entry? = some e → f.AgreesFrom e f' → ∀ b, f.Leads e b →
    (∀ a, (ofCfg (Cfg.ofFunc f')).dominates a b = d.dominates a b) ∧
      (ofCfg (Cfg.ofFunc f')).ipdom? b = d.ipdom? b

/-- Whatever edges a function has between the blocks of its arena, its postdominators are exact. -/
theorem precise (hf : f.InArena) (he : f.entry? = some e) :
    Precise f e (ofCfg (Cfg.ofFunc f)) where
  ends := ends hf he
  dominates a b := by rw [dominates_iff hf he, postDom_iff_path]
  nearest a b := by simp only [ipdom?_eq_some hf he, dominates_iff hf he]
  onlyExit b := by simp only [ipdom?_eq_none hf he, dominates_iff hf he]
  endless b hb := by
    have hnone : ∀ a, ¬ PostDom f e a b := by
      intro a hp
      obtain ⟨r, hr, her, hbr⟩ := hp.returns
      exact hb r hr her hbr
    simp only [ipdom?_eq_none hf he, dominates_iff hf he]
    exact ⟨hnone, fun a _ => hnone a⟩
  dead f' hf' he' h b hb := by
    refine ⟨fun a => ?_, ?_⟩
    · exact dominates_congr hf hf' he he' h hb
    · exact ipdom?_congr hf hf' he he' h hb

/-- Two returns, an endless loop, and two blocks that nothing leads to: one goes to a return and
one is a return itself. -/
def forked : Func := .build "f" do
  let c ← Build.param "c" .int
  let spin ← Build.createBlock "spin"
  let split ← Build.createBlock "split"
  let left ← Build.createBlock "left"
  let right ← Build.createBlock "right"
  let astray ← Build.createBlock "astray"
  let lost ← Build.createBlock "lost"
  discard <| Build.emit (.condBr c spin split)
  Build.switchTo spin
  discard <| Build.emit (.br spin)
  Build.switchTo split
  discard <| Build.emit (.condBr c left right)
  Build.switchTo left
  discard <| Build.emit (.ret none)
  Build.switchTo right
  discard <| Build.emit (.ret none)
  Build.switchTo astray
  discard <| Build.emit (.condBr c left lost)
  Build.switchTo lost
  discard <| Build.emit (.ret none)

theorem inArena_forked : forked.InArena :=
  .of_layout (by decide +kernel) (by decide +kernel)

theorem precise_forked : forked.InArena ∧ forked.entry? = some ⟨0⟩ ∧
    Precise forked ⟨0⟩ (ofCfg (Cfg.ofFunc forked)) := by
  have he : forked.entry? = some ⟨0⟩ := by decide +kernel
  exact ⟨inArena_forked, he, precise inArena_forked he⟩

/-- The endless loop keeps nothing from the entry, the return that nothing leads to keeps nothing
from the block in front of it, and below the virtual exit there is no block. -/
example : forked.layout.map (ofCfg (Cfg.ofFunc forked)).ipdom? =
    [some ⟨2⟩, none, none, none, none, some ⟨3⟩, none] := by
  decide +kernel

end PostDominators

end LoopFusion
