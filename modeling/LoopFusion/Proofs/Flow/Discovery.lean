import LoopFusion.Proofs.Flow.ExactDominance
import LoopFusion.Proofs.Flow.Forest

/-!
Loop discovery, said of the paths of the graph alone: which blocks are headers, and which latches
and blocks each of the loops found has. Nothing is asked of the graph but that its edges stay in the
arena; it may be entered at several blocks of a cycle, and dead blocks may lead into it.
-/

namespace LoopFusion

open Relation LoopFusion.Flow

/-- Control from the entry can come to `b`. -/
def Func.Reached (f : Func) (b : BlockId) : Prop := ∃ e, f.entry? = some e ∧ f.Leads e b

/-- The block `h` is on all paths from the entry to `b`, and there are such paths. -/
structure Func.OnAllPaths (f : Func) (h b : BlockId) : Prop where
  reached : f.Reached b
  mem : ∀ e p, f.entry? = some e → Path f.Edge e b p → h ∈ p

/-- An edge from `l` to a block that control has to come through to get to `l`. -/
structure Func.BackEdge (f : Func) (l h : BlockId) : Prop where
  edge : f.Edge l h
  through : f.OnAllPaths h l

namespace LoopForest

/-- These are the natural loops of a function, each found once. -/
structure Natural (f : Func) (t : LoopForest) : Prop where
  headers : ∀ h, (∃ l ∈ t.loops, l.header = h) ↔ f.Reached h ∧ ∃ b, f.BackEdge b h
  once : (t.loops.map (·.header)).Nodup
  latches : ∀ l ∈ t.loops, l.latches.Nodup ∧ ∀ b, b ∈ l.latches ↔ f.BackEdge b l.header
  blocks : ∀ l ∈ t.loops, l.blocks.Nodup ∧ ∀ b, b ∈ l.blocks ↔
    b = l.header ∨ b ≠ l.header ∧ f.Reached b ∧
      ∃ x ∈ l.latches, ∃ p, Path f.Edge b x p ∧ l.header ∉ p
  headed : ∀ l ∈ t.loops, ∀ b ∈ l.blocks, f.OnAllPaths l.header b
  /-- The search backwards from the latches ends by itself, with the blocks besides the header. -/
  ends : ∀ l ∈ t.loops, ∃ s,
    Explores (Region.behind (Cfg.ofFunc f) l.header) ⟨[], []⟩ l.latches s ∧
      ∀ b, b ∈ l.blocks ↔ b = l.header ∨ b ∈ s.order

end LoopForest

section

variable {ν : Type} {E : ν → ν → Prop} {a b c : ν}

theorem Flow.walk_ne_iff_path : Walk E (· ≠ a) b c ↔ ∃ p, Path E b c p ∧ a ∉ p := by
  constructor
  · intro h
    obtain ⟨p, hp, hne⟩ := h.exists_path
    exact ⟨p, hp, fun ha => hne a ha rfl⟩
  · rintro ⟨p, hp, ha⟩
    exact hp.walk fun x hx he => ha (he ▸ hx)

end

variable {f : Func} {e h b l x : BlockId}

namespace Func

theorem reached_iff (he : f.entry? = some e) : f.Reached b ↔ f.Leads e b := by
  simp only [Reached, he, Option.some.injEq, exists_eq_left']

theorem not_reached (he : f.entry? = none) : ¬ f.Reached b := by
  rintro ⟨e, he', -⟩
  rw [he] at he'
  cases he'

theorem onAllPaths_iff (he : f.entry? = some e) : f.OnAllPaths h b ↔ Dom f.Edge e h b := by
  constructor
  · intro hp
    exact ⟨(reached_iff he).1 hp.reached, not_walk_iff_path.2 fun p => hp.mem e p he⟩
  · intro hd
    refine ⟨(reached_iff he).2 hd.1, fun e' p he' => ?_⟩
    obtain rfl := Option.some.inj (he.symm.trans he')
    exact not_walk_iff_path.1 hd.2 p

theorem backEdge_iff (he : f.entry? = some e) : f.BackEdge l h ↔ f.Back e l h :=
  ⟨fun hb => ⟨hb.edge, (onAllPaths_iff he).1 hb.through⟩,
    fun hb => ⟨hb.edge, (onAllPaths_iff he).2 hb.dom⟩⟩

theorem inLoop_iff (hh : f.InLoop e h h) : f.InLoop e h x ↔
    x = h ∨ x ≠ h ∧ f.Leads e x ∧ ∃ l, f.Back e l h ∧ ∃ p, Path f.Edge x l p ∧ h ∉ p := by
  by_cases hx : x = h
  · simp [hx, hh]
  · simp only [InLoop, Flow.InLoop, hx, false_or, ne_eq, not_false_eq_true, true_and,
      walk_ne_iff_path]
    exact ⟨fun ⟨l, hb, hr, hp⟩ => ⟨hr, l, hb, hp⟩, fun ⟨hr, l, hb, hp⟩ => ⟨l, hb, hr, hp⟩⟩

end Func

namespace LoopForest

section

variable {l : Loop} (hf : f.InArena) (he : f.entry? = some e)

include hf he

theorem exists_header_iff : (∃ l ∈ f.forest.loops, l.header = h) ↔ ∃ b, f.Back e b h := by
  constructor
  · rintro ⟨l, hl, rfl⟩
    obtain ⟨b, hb, -⟩ := headed hf he hl
    exact ⟨b, hb⟩
  · rintro ⟨b, hb⟩
    exact exists_loop hf he hb.inLoop.header

theorem mem_latches (hl : l ∈ f.forest.loops) : b ∈ l.latches ↔ f.Back e b l.header :=
  (region_is hf he hl).latches b

theorem mem_blocks (hl : l ∈ f.forest.loops) : b ∈ l.blocks ↔
    b = l.header ∨ b ≠ l.header ∧ f.Leads e b ∧
      ∃ x, f.Back e x l.header ∧ ∃ p, Path f.Edge b x p ∧ l.header ∉ p :=
  ((region_is hf he hl).blocks b).trans (Func.inLoop_iff (headed hf he hl))

/-- The search that finds the blocks of a loop, without a bound. -/
theorem explores_blocks (hl : l ∈ f.forest.loops) : ∃ s,
    Explores (Region.behind (Cfg.ofFunc f) l.header) ⟨[], []⟩ l.latches s ∧
      ∀ b, b ∈ l.blocks ↔ b = l.header ∨ b ∈ s.order := by
  have hlatches : l.latches = Region.latchesOf (Cfg.ofFunc f) (.ofCfg (Cfg.ofFunc f)) l.header :=
    Region.latches_of_mem_all (List.mem_of_getElem? (region_getElem? hl))
  have hclosed := Region.behind_mem_arena (h := l.header) hf
  have hroots := Region.latchesOf_mem_arena (h := l.header) hf he
  have hbound : unseen f.arena (⟨[], []⟩ : Visit BlockId) < (Cfg.ofFunc f).capacity + 1 := by
    have := List.length_filter_le (· ∉ (⟨[], []⟩ : Visit BlockId).seen) f.arena
    rw [Func.length_arena] at this
    rw [Cfg.capacity_ofFunc, unseen]
    omega
  rw [hlatches]
  refine ⟨_, explores_foldl (explores_visit hclosed _) hclosed hroots hbound, fun b => ?_⟩
  have hmem := Region.mem_members hf he (h := l.header) (x := b)
  rw [Region.interior_eq] at hmem
  have hblock : b ∈ l.blocks ↔ f.InLoop e l.header b := (region_is hf he hl).blocks b
  rw [hblock]
  refine .trans ⟨.inr, fun h => ?_⟩ hmem.symm
  rcases h with rfl | h
  · exact headed hf he hl
  · exact h

end

/-- Discovery finds the natural loops, and no others. -/
theorem natural (hf : f.InArena) : Natural f f.forest := by
  cases he : f.entry? with
  | none =>
    have hn : f.forest.loops = [] := loops_eq_nil he
    have hr : ∀ b, ¬ f.Reached b := fun b => Func.not_reached he
    constructor <;> simp [hn, hr]
  | some e =>
    have hback : ∀ {b h}, f.BackEdge b h ↔ f.Back e b h := Func.backEdge_iff he
    refine ⟨fun h => ?_, nodup_headers hf he, fun l hl => ⟨?_, fun b => ?_⟩,
      fun l hl => ⟨(region_is hf he hl).nodup, fun b => ?_⟩, fun l hl b hb => ?_,
      fun l hl => explores_blocks hf he hl⟩
    · rw [exists_header_iff hf he, Func.reached_iff he]
      simp only [hback]
      exact ⟨fun ⟨b, hb⟩ => ⟨hb.inLoop.header.reach, b, hb⟩, fun h => h.2⟩
    · exact (region_is hf he hl).nodupLatches
    · rw [mem_latches hf he hl, hback]
    · rw [mem_blocks hf he hl]
      simp only [Func.reached_iff he, mem_latches hf he hl]
    · exact (Func.onAllPaths_iff he).2 (((region_is hf he hl).blocks b).1 hb).dom

/-- A cycle entered at two blocks, a loop with two latches of which one is a loop of its own, and a
dead block that leads to its header. -/
def tangled : Func := .build "f" do
  let c ← Build.param "c" .int
  let x ← Build.createBlock "x"
  let y ← Build.createBlock "y"
  let header ← Build.createBlock "header"
  let left ← Build.createBlock "left"
  let right ← Build.createBlock "right"
  let exit ← Build.createBlock "exit"
  let dead ← Build.createBlock "dead"
  discard <| Build.emit (.condBr c x y)
  Build.switchTo x
  discard <| Build.emit (.condBr c y header)
  Build.switchTo y
  discard <| Build.emit (.condBr c x header)
  Build.switchTo header
  discard <| Build.emit (.condBr c left exit)
  Build.switchTo left
  discard <| Build.emit (.condBr c header right)
  Build.switchTo right
  discard <| Build.emit (.condBr c right header)
  Build.switchTo exit
  discard <| Build.emit (.ret none)
  Build.switchTo dead
  discard <| Build.emit (.br header)

theorem inArena_tangled : tangled.InArena :=
  .of_layout (by decide +kernel) (by decide +kernel)

theorem natural_tangled : tangled.InArena ∧ Natural tangled tangled.forest :=
  ⟨inArena_tangled, natural inArena_tangled⟩

/-- The cycle has no header, and the dead block is no latch. -/
example : tangled.forest.loops.map (fun l => (l.header, l.latches, l.blocks)) =
    [(⟨3⟩, [⟨4⟩, ⟨5⟩], [⟨3⟩, ⟨4⟩, ⟨5⟩]), (⟨5⟩, [⟨5⟩], [⟨5⟩])] := by
  decide +kernel

end LoopForest

end LoopFusion
