import LoopFusion.Proofs.Flow.Counted
import LoopFusion.Proofs.Flow.Nesting
import Mathlib.Data.List.Pairwise

/-!
The loops of a written function are those that were asked for.
-/

namespace LoopFusion

open Build Relation LoopFusion.Flow

theorem BlockId.index_inj {x y : BlockId} : x.index = y.index ↔ x = y := by
  cases x
  cases y
  simp

/-- The edges that come with a loop. -/
inductive CountedLoop.Arc (m : CountedLoop) : BlockId → BlockId → Prop
  | enter : m.Arc m.preheader m.header
  | body : m.Arc m.header m.body
  | exit : m.Arc m.header m.exit
  | latch : m.Arc m.tail m.latch
  | back : m.Arc m.latch m.header

theorem CountedLoop.Arc.mem_sources {m : CountedLoop} {x y : BlockId} (h : m.Arc x y) :
    x ∈ m.sources := by
  cases h <;> simp [sources]

/-- The edges from the blocks that are written around a body come with the loop. -/
theorem Call.In.edge_iff {f : Func} {c : Call} {x y : BlockId} (h : c.In f) (hx : x ∈ f.layout)
    (hm : x ∈ c.made.sources) : f.Edge x y ↔ c.made.Arc x y := by
  obtain ⟨cond, hhead⟩ := h.exitOp?_header
  constructor
  · intro hxy
    simp only [CountedLoop.sources, List.mem_cons, List.not_mem_nil, or_false] at hm
    rcases hm with rfl | rfl | rfl | rfl
    · obtain rfl := List.mem_singleton.1 ((Func.edge_iff hx h.enter).1 hxy)
      exact .enter
    · rcases List.mem_cons.1 ((Func.edge_iff hx hhead).1 hxy) with rfl | hy
      · exact .body
      · obtain rfl := List.mem_singleton.1 hy
        exact .exit
    · obtain rfl := List.mem_singleton.1 ((Func.edge_iff hx h.repeats).1 hxy)
      exact .latch
    · obtain rfl := List.mem_singleton.1 ((Func.edge_iff hx h.exitOp?_latch).1 hxy)
      exact .back
  · intro harc
    cases harc with
    | enter => exact (Func.edge_iff hx h.enter).2 (List.mem_singleton_self _)
    | body => exact (Func.edge_iff hx hhead).2 (List.mem_cons_self ..)
    | exit => exact (Func.edge_iff hx hhead).2 (List.mem_cons_of_mem _ (List.mem_singleton_self _))
    | latch => exact (Func.edge_iff hx h.repeats).2 (List.mem_singleton_self _)
    | back => exact (Func.edge_iff hx h.exitOp?_latch).2 (List.mem_singleton_self _)

/-- Two loops of a program: the same, one inside the other, or one behind the other. -/
def CountedLoop.Related (m n : CountedLoop) : Prop :=
  m = n ∨ n.Within m ∨ m.Within n ∨ n.Behind m ∨ m.Behind n

theorem exists_forall₂ {α β : Type} {R : α → β → Prop} {as : List α} {bs : List β}
    (h : ∀ a ∈ as, ∃ b ∈ bs, R a b) : ∃ l, List.Forall₂ R as l ∧ ∀ b ∈ l, b ∈ bs := by
  induction as with
  | nil => exact ⟨[], .nil, by simp⟩
  | cons a as ih =>
    obtain ⟨⟨b, hb, hab⟩, has⟩ := List.forall_mem_cons.1 h
    obtain ⟨l, hl, hmem⟩ := ih has
    exact ⟨b :: l, .cons hab hl, List.forall_mem_cons.2 ⟨hb, hmem⟩⟩

namespace CountedLoop

variable {m n : CountedLoop} {x y : BlockId}

/-- The header or the latch of the loop or a block between them. -/
def Holds (m : CountedLoop) (x : BlockId) : Prop :=
  m.header.index ≤ x.index ∧ x.index ≤ m.latch.index

theorem Related.cases (hr : m.Related n) : m = n ∨
    (m.body.index ≤ n.preheader.index ∧ n.exit.index ≤ m.tail.index) ∨
    (n.body.index ≤ m.preheader.index ∧ m.exit.index ≤ n.tail.index) ∨
    m.exit.index ≤ n.preheader.index ∨ n.exit.index ≤ m.preheader.index := hr

theorem Related.arc_header (hr : m.Related n) (hm : m.Ordered) (hn : n.Ordered)
    (harc : n.Arc x m.header) : x = m.preheader ∨ x = m.latch := by
  obtain ⟨h₁, h₂, h₃, h₄, h₅⟩ := hm
  obtain ⟨g₁, g₂, g₃, g₄, g₅⟩ := hn
  simp only [← BlockId.index_inj]
  generalize hy : m.header = y at harc
  replace hy := BlockId.index_inj.2 hy
  rcases hr.cases with rfl | h <;> cases harc <;> omega

theorem Related.arc_exit (hr : m.Related n) (hm : m.Ordered) (hn : n.Ordered)
    (harc : n.Arc x m.exit) : x = m.header := by
  obtain ⟨h₁, h₂, h₃, h₄, h₅⟩ := hm
  obtain ⟨g₁, g₂, g₃, g₄, g₅⟩ := hn
  simp only [← BlockId.index_inj]
  generalize hy : m.exit = y at harc
  replace hy := BlockId.index_inj.2 hy
  rcases hr.cases with rfl | h <;> cases harc <;> omega

theorem Related.arc_in (hr : m.Related n) (hm : m.Ordered) (hn : n.Ordered) (harc : n.Arc x y)
    (hx : ¬ m.Holds x) (hy : m.Holds y) : y = m.header := by
  obtain ⟨h₁, h₂, h₃, h₄, h₅⟩ := hm
  obtain ⟨g₁, g₂, g₃, g₄, g₅⟩ := hn
  rw [Holds] at hx hy
  apply BlockId.index_inj.1
  rcases hr.cases with rfl | h <;> cases harc <;> omega

theorem Related.arc_out (hr : m.Related n) (hm : m.Ordered) (hn : n.Ordered) (harc : n.Arc x y)
    (hx : m.Holds x) (hy : ¬ m.Holds y) : x = m.header ∧ y = m.exit := by
  obtain ⟨h₁, h₂, h₃, h₄, h₅⟩ := hm
  obtain ⟨g₁, g₂, g₃, g₄, g₅⟩ := hn
  rw [Holds] at hx hy
  simp only [← BlockId.index_inj]
  rcases hr.cases with rfl | h <;> cases harc <;> omega

theorem Related.preheader_ne (hr : m.Related n) (hm : m.Ordered) (hn : n.Ordered) :
    m.preheader ≠ n.header ∧ m.preheader ≠ n.latch := by
  obtain ⟨h₁, h₂, h₃, h₄, h₅⟩ := hm
  obtain ⟨g₁, g₂, g₃, g₄, g₅⟩ := hn
  simp only [ne_eq, ← BlockId.index_inj]
  rcases hr.cases with rfl | h <;> omega

theorem Related.tested_ne (hr : m.Related n) (hm : m.Ordered) (hn : n.Ordered) :
    (m.header ≠ n.body ∧ m.header ≠ n.exit) ∧ m.latch ≠ n.body ∧ m.latch ≠ n.exit := by
  obtain ⟨h₁, h₂, h₃, h₄, h₅⟩ := hm
  obtain ⟨g₁, g₂, g₃, g₄, g₅⟩ := hn
  simp only [ne_eq, ← BlockId.index_inj]
  rcases hr.cases with rfl | h <;> omega

theorem Related.within_of_holds (hr : m.Related n) (hm : m.Ordered) (hn : n.Ordered)
    (h : n.Holds m.header) : m = n ∨ m.Within n := by
  obtain ⟨h₁, h₂, h₃, h₄, h₅⟩ := hm
  obtain ⟨g₁, g₂, g₃, g₄, g₅⟩ := hn
  rw [Holds] at h
  refine hr.imp_right fun hr => ?_
  simp only [Within, Behind] at hr ⊢
  omega

theorem Within.holds (h : m.Within n) (hm : m.Ordered) (hn : n.Ordered) : n.Holds m.header := by
  obtain ⟨h₁, h₂, h₃, h₄, h₅⟩ := hm
  obtain ⟨g₁, g₂, g₃, g₄, g₅⟩ := hn
  obtain ⟨h, h'⟩ := h
  rw [Holds]
  omega

theorem Within.header_ne (h : m.Within n) (hm : m.Ordered) (hn : n.Ordered) :
    n.header ≠ m.header := by
  intro he
  have := congrArg BlockId.index he
  have := hm.header
  have := hn.body
  have := h.1
  omega

end CountedLoop

/-- A function with the given loops, written one after the other and in one another, that returns
from `last`. -/
structure Func.Built (f : Func) (cs : List Call) (last : BlockId) : Prop where
  entry : f.entry? = some ⟨0⟩
  orderly : f.Orderly
  code : ∀ c ∈ cs, c.In f
  ordered : ∀ c ∈ cs, c.made.Ordered
  arranged : cs.Pairwise fun c d => d.made.Within c.made ∨ d.made.Behind c.made
  nested : ∀ c ∈ cs, (c.around? = none ∧ ∀ d ∈ cs, ¬ c.made.Within d.made) ∨
    ∃ o ∈ cs, c.around? = some o.made ∧ c.made.Within o.made ∧
      ∀ d ∈ cs, c.made.Within d.made → d.made = o.made ∨ o.made.Within d.made
  sources : ∀ b, b.index < f.blocks.size → b = last ∨ ∃ c ∈ cs, b ∈ c.made.sources
  targets : ∀ b, 0 < b.index → b.index < f.blocks.size → ∃ c ∈ cs, b ∈ c.made.targets
  exits : ∀ c ∈ cs, c.made.exit.index ≤ last.index
  bounded : last.index < f.blocks.size
  returns : ∃ v, f.exitOp? last = some (.ret v)

namespace Func.Built

variable {f : Func} {cs : List Call} {last x y : BlockId} {c d : Call} {l : Loop} (hb : f.Built cs last)

include hb

theorem mem_layout : x ∈ f.layout ↔ x.index < f.blocks.size := by
  rw [hb.orderly.layout, mem_arena]

theorem related (hc : c ∈ cs) (hd : d ∈ cs) : c.made.Related d.made := by
  have hsymm : Std.Symm fun c d : Call => c.made.Related d.made := by
    refine ⟨fun c d h => ?_⟩
    rcases h with h | h | h | h | h
    · exact .inl h.symm
    · exact .inr (.inr (.inl h))
    · exact .inr (.inl h)
    · exact .inr (.inr (.inr (.inr h)))
    · exact .inr (.inr (.inr (.inl h)))
  have hpair : cs.Pairwise fun c d => c.made.Related d.made := hb.arranged.imp fun h =>
    h.elim (fun h => .inr (.inl h)) fun h => .inr (.inr (.inr (.inl h)))
  exact hpair.forall_of_forall (fun _ _ => .inl rfl) hc hd

theorem mem_layout_of_le (hc : c ∈ cs) (hx : x.index ≤ c.made.exit.index) : x ∈ f.layout :=
  hb.mem_layout.2 ((hx.trans (hb.exits c hc)).trans_lt hb.bounded)

theorem mem_layout_of_arc (hc : c ∈ cs) (h : c.made.Arc x y) : x ∈ f.layout ∧ y ∈ f.layout := by
  obtain ⟨h₁, h₂, h₃, h₄, h₅⟩ := hb.ordered c hc
  cases h <;> exact ⟨hb.mem_layout_of_le hc (by omega), hb.mem_layout_of_le hc (by omega)⟩

theorem edge_iff : f.Edge x y ↔ ∃ c ∈ cs, c.made.Arc x y := by
  constructor
  · intro hxy
    rcases hb.sources x (hb.mem_layout.1 hxy.1) with rfl | ⟨c, hc, hm⟩
    · obtain ⟨v, hv⟩ := hb.returns
      exact absurd ((Func.edge_iff hxy.1 hv).1 hxy) List.not_mem_nil
    · exact ⟨c, hc, ((hb.code c hc).edge_iff hxy.1 hm).1 hxy⟩
  · rintro ⟨c, hc, harc⟩
    exact ((hb.code c hc).edge_iff (hb.mem_layout_of_arc hc harc).1 harc.mem_sources).2 harc

theorem staged : f.Staged ⟨0⟩ BlockId.index where
  entry := hb.entry
  inArena := by
    refine ⟨fun x hx => hb.mem_layout.1 hx, fun x y hxy => ?_⟩
    obtain ⟨c, hc, harc⟩ := hb.edge_iff.1 hxy
    exact hb.mem_layout.1 (hb.mem_layout_of_arc hc harc).2
  closed x y hxy := by
    obtain ⟨c, hc, harc⟩ := hb.edge_iff.1 hxy
    exact (hb.mem_layout_of_arc hc harc).2
  inj x _ y _ h := BlockId.index_inj.1 h
  descend x hx hne := by
    have hpos : 0 < x.index := Nat.pos_of_ne_zero fun h => hne (BlockId.eq_mk.2 h)
    obtain ⟨c, hc, hm⟩ := hb.targets x hpos (hb.mem_layout.1 hx)
    have hord := hb.ordered c hc
    have := hord.header
    have := hord.body
    have := hord.tail
    have := hord.latch
    have := hord.exit
    simp only [CountedLoop.targets, List.mem_cons, List.not_mem_nil, or_false] at hm
    rcases hm with rfl | rfl | rfl | rfl
    · exact ⟨_, hb.edge_iff.2 ⟨c, hc, .enter⟩, hord.header⟩
    · exact ⟨_, hb.edge_iff.2 ⟨c, hc, .body⟩, by omega⟩
    · exact ⟨_, hb.edge_iff.2 ⟨c, hc, .latch⟩, by omega⟩
    · exact ⟨_, hb.edge_iff.2 ⟨c, hc, .exit⟩, by omega⟩

theorem onward (hc : c ∈ cs) (hx : x ∈ f.layout) (hlt : c.made.header.index < x.index)
    (hlt' : x.index < c.made.latch.index) :
    ∃ y, Walk f.Edge (· ≠ c.made.header) x y ∧ x.index < y.index ∧
      y.index ≤ c.made.latch.index := by
  have hlast := hb.exits c hc
  obtain ⟨h₁, h₂, h₃, h₄, h₅⟩ := hb.ordered c hc
  rcases hb.sources x (hb.mem_layout.1 hx) with rfl | ⟨d, hd, hm⟩
  · omega
  obtain ⟨g₁, g₂, g₃, g₄, g₅⟩ := hb.ordered d hd
  have hne : ∀ {z : BlockId}, c.made.header.index < z.index → z ≠ c.made.header :=
    fun h he => Nat.lt_irrefl _ (he ▸ h)
  have hedge : ∀ {x y}, d.made.Arc x y → f.Edge x y := fun harc => hb.edge_iff.2 ⟨d, hd, harc⟩
  have hrel := (hb.related hc hd).cases
  simp only [CountedLoop.sources, List.mem_cons, List.not_mem_nil, or_false] at hm
  rcases hm with rfl | rfl | rfl | rfl
  · refine ⟨_, .single (hedge .enter) (hne hlt) (hne (by omega)), g₁, ?_⟩
    rcases hrel with heq | h
    · rw [← heq]
      omega
    · omega
  · refine ⟨_, .single (hedge .exit) (hne hlt) (hne (by omega)), by omega, ?_⟩
    rcases hrel with heq | h
    · rw [heq] at hlt
      omega
    · omega
  · refine ⟨_, .single (hedge .latch) (hne hlt) (hne (by omega)), g₄, ?_⟩
    rcases hrel with heq | h
    · rw [heq]
    · omega
  · -- the loop is inside this one, and goes back to its header before it is left
    have hin : c.made.body.index ≤ d.made.preheader.index ∧
        d.made.exit.index ≤ c.made.tail.index := by
      rcases hrel with heq | h
      · rw [heq] at hlt'
        omega
      · omega
    exact ⟨_, .tail (.single (hedge .back) (hne hlt) (hne (by omega))) (hedge .exit)
      (hne (by omega)), by omega, by omega⟩

theorem span (hc : c ∈ cs) : f.Span ⟨0⟩ BlockId.index c.made.header c.made.latch := by
  have hord := hb.ordered c hc
  obtain ⟨h₁, h₂, h₃, h₄, h₅⟩ := hb.ordered c hc
  refine ⟨hb.edge_iff.2 ⟨c, hc, .back⟩, Nat.zero_lt_of_lt h₁, by omega,
    fun x y hxy hout hle hle' => ?_, fun x hx hle => ?_, fun x => hb.onward hc⟩
  · obtain ⟨d, hd, harc⟩ := hb.edge_iff.1 hxy
    exact (hb.related hc hd).arc_in hord (hb.ordered d hd) harc hout ⟨hle, hle'⟩
  · obtain ⟨d, hd, harc⟩ := hb.edge_iff.1 hx
    refine ((hb.related hc hd).arc_header hord (hb.ordered d hd) harc).resolve_left ?_
    rintro rfl
    omega

theorem stands (hc : c ∈ cs) : c.Stands f ⟨0⟩ BlockId.index := by
  have hord := hb.ordered c hc
  obtain ⟨h₁, h₂, h₃, h₄, h₅⟩ := hb.ordered c hc
  refine ⟨hb.code c hc, hb.span hc, h₁, by omega, by omega, by omega, fun q hq hlt => ?_,
    (hb.mem_layout_of_arc hc .enter).1, fun x y hxy hle hle' hout => ?_⟩
  · obtain ⟨d, hd, harc⟩ := hb.edge_iff.1 hq
    refine ((hb.related hc hd).arc_header hord (hb.ordered d hd) harc).resolve_right ?_
    rintro rfl
    omega
  · obtain ⟨d, hd, harc⟩ := hb.edge_iff.1 hxy
    exact (hb.related hc hd).arc_out hord (hb.ordered d hd) harc ⟨hle, hle'⟩ hout

theorem inLoop_iff (hc : c ∈ cs) :
    f.InLoop ⟨0⟩ c.made.header x ↔ c.made.Holds x := by
  rw [(hb.span hc).inLoop_iff hb.staged]
  refine and_iff_right_of_imp fun h => hb.mem_layout_of_le hc ?_
  have := (hb.ordered c hc).exit
  have := h.2
  omega

/-- The headers are those of the calls. -/
theorem headed_iff : f.InLoop ⟨0⟩ x x ↔ ∃ c ∈ cs, c.made.header = x := by
  constructor
  · rintro ⟨l, hback, -⟩
    have hle := hb.staged.le_of_dom hback.dom hback.edge.1
    obtain ⟨c, hc, harc⟩ := hb.edge_iff.1 hback.edge
    obtain ⟨h₁, h₂, h₃, h₄, h₅⟩ := hb.ordered c hc
    refine ⟨c, hc, ?_⟩
    cases harc with
    | back => rfl
    | _ => omega
  · rintro ⟨c, hc, rfl⟩
    have := (hb.ordered c hc).body
    have := (hb.ordered c hc).tail
    have := (hb.ordered c hc).latch
    exact (hb.inLoop_iff hc).2 ⟨Nat.le_refl _, by omega⟩

/-- The loops around that of a call are those of the calls in whose bodies it was made. -/
theorem around_iff (hc : c ∈ cs) :
    f.InLoop ⟨0⟩ x c.made.header ↔ ∃ d ∈ cs, d.made.header = x ∧
      (c.made = d.made ∨ c.made.Within d.made) := by
  constructor
  · intro h
    obtain ⟨d, hd, rfl⟩ := hb.headed_iff.1 h.header
    exact ⟨d, hd, rfl, (hb.related hc hd).within_of_holds (hb.ordered c hc) (hb.ordered d hd)
      ((hb.inLoop_iff hd).1 h)⟩
  · rintro ⟨d, hd, rfl, heq | hw⟩
    · rw [heq]
      exact hb.headed_iff.2 ⟨d, hd, rfl⟩
    · exact (hb.inLoop_iff hd).2 (hw.holds (hb.ordered c hc) (hb.ordered d hd))

/-- The parent of a loop is the loop of the call in whose body it was made. -/
theorem parent (hc : c ∈ cs) (hl : l ∈ f.forest.loops) (hheader : l.header = c.made.header) :
    match c.around? with
    | none => l.parent? = none
    | some o => ∃ p ∈ f.forest.loops, p.header = o.header ∧ l.parent? = some p.id := by
  have hf := hb.staged.inArena
  have he := hb.entry
  rcases hb.nested c hc with ⟨hnone, hout⟩ | ⟨o, ho, hsome, hw, hleast⟩
  · rw [hnone]
    refine (LoopForest.parent?_eq_none_iff hf he hl).2 fun q hq => ?_
    rw [hheader] at hq ⊢
    obtain ⟨d, hd, rfl, heq | hw⟩ := (hb.around_iff hc).1 hq
    · rw [heq]
    · exact absurd hw (hout d hd)
  · rw [hsome]
    obtain ⟨p, hp, hph⟩ := LoopForest.exists_loop hf he (hb.headed_iff.2 ⟨o, ho, rfl⟩)
    refine ⟨p, hp, hph, (LoopForest.parent?_eq_some_iff hf he hl hp).2 ?_⟩
    rw [hph, hheader]
    refine ⟨hw.header_ne (hb.ordered c hc) (hb.ordered o ho),
      (hb.around_iff hc).2 ⟨o, ho, rfl, .inr hw⟩, fun q hq hne => ?_⟩
    obtain ⟨d, hd, rfl, heq | hcd⟩ := (hb.around_iff hc).1 hq
    · exact absurd (congrArg CountedLoop.header heq).symm hne
    · exact (hb.around_iff ho).2 ⟨d, hd, rfl, (hleast d hd hcd).imp_left Eq.symm⟩

theorem jumps (h : f.exitOp? x = some (.br y)) (hx : x ∈ f.layout) :
    ∃ c ∈ cs, y = c.made.header ∨ y = c.made.latch := by
  obtain ⟨c, hc, harc⟩ := hb.edge_iff.1 ((Func.edge_iff hx h).2 (List.mem_singleton_self _))
  refine ⟨c, hc, ?_⟩
  obtain ⟨cond, hhead⟩ := (hb.code c hc).exitOp?_header
  cases harc with
  | enter => exact .inl rfl
  | latch => exact .inr rfl
  | back => exact .inl rfl
  | _ =>
    rw [hhead] at h
    cases h

theorem unguarded (hc : c ∈ cs) (hl : l ∈ f.forest.loops) (hheader : l.header = c.made.header) :
    l.guard? = none := by
  refine (hb.stands hc).unguarded hb.staged hl hheader fun g o hg ho => ?_
  obtain ⟨d, hd, harc⟩ := hb.edge_iff.1 hg
  have hcord := hb.ordered c hc
  have hdord := hb.ordered d hd
  have hrel := hb.related hc hd
  obtain ⟨hne, hne'⟩ := hrel.preheader_ne hcord hdord
  have hjump : ∀ y, y = d.made.body ∨ y = d.made.exit → f.exitOp? c.made.exit ≠ some (.br y) := by
    intro y hy hbr
    obtain ⟨k, hk, hky⟩ := hb.jumps hbr (hb.mem_layout_of_le hc (Nat.le_refl _))
    have := (hb.related hk hd).tested_ne (hb.ordered k hk) hdord
    rcases hy with rfl | rfl <;> rcases hky with h | h <;> simp_all
  have hbody : f.Edge d.made.header d.made.body := hb.edge_iff.2 ⟨d, hd, .body⟩
  have hexit : f.Edge d.made.header d.made.exit := hb.edge_iff.2 ⟨d, hd, .exit⟩
  obtain ⟨h₁, h₂, h₃, h₄, h₅⟩ := hcord
  obtain ⟨g₁, g₂, g₃, g₄, g₅⟩ := hdord
  have hcases := hrel.cases
  generalize hp : c.made.preheader = p at harc ho
  have hidx := BlockId.index_inj.2 hp
  cases harc with
  | enter => exact absurd hp hne
  | latch => exact absurd hp hne'
  | back => exact absurd hp hne
  | body =>
    rcases (ho _).1 hexit with he | rfl
    · have := BlockId.index_inj.2 he
      omega
    · refine ⟨fun he => ?_, hjump _ (.inr rfl)⟩
      have := BlockId.index_inj.2 he
      rcases hcases with heq | h
      · rw [heq] at hidx h₁
        omega
      · omega
  | exit =>
    rcases (ho _).1 hbody with he | rfl
    · have := BlockId.index_inj.2 he
      omega
    · refine ⟨fun he => ?_, hjump _ (.inl rfl)⟩
      have := BlockId.index_inj.2 he
      omega

section Dominance

variable {z : BlockId} (hc : c ∈ cs)

include hc

theorem dom_header (h : Dom f.Edge ⟨0⟩ z c.made.preheader) : Dom f.Edge ⟨0⟩ z c.made.header := by
  refine h.trans (((hb.stands hc).gated hb.staged).dom_preheader fun he => ?_)
  have := BlockId.index_inj.2 he
  have := (hb.ordered c hc).header
  simp only at *
  omega

theorem header_dom_body : Dom f.Edge ⟨0⟩ c.made.header c.made.body :=
  ((hb.stands hc).gated hb.staged).bodyHead_in.dom

theorem header_dom_latch : Dom f.Edge ⟨0⟩ c.made.header c.made.latch := by
  obtain ⟨h₁, h₂, h₃, h₄, h₅⟩ := hb.ordered c hc
  exact ((hb.inLoop_iff hc).2 ⟨by omega, Nat.le_refl _⟩).dom

theorem header_dom_exit : Dom f.Edge ⟨0⟩ c.made.header c.made.exit := by
  obtain ⟨h₁, h₂, h₃, h₄, h₅⟩ := hb.ordered c hc
  refine hb.staged.dom_of_only (hb.mem_layout_of_arc hc .exit).2 (fun he => ?_) (fun z hz => ?_)
    (.of_reach (hb.staged.leads (hb.mem_layout_of_arc hc .enter).2))
  · have := BlockId.index_inj.2 he
    simp only at this
    omega
  · obtain ⟨d, hd, harc⟩ := hb.edge_iff.1 hz
    exact (hb.related hc hd).arc_exit (hb.ordered c hc) (hb.ordered d hd) harc

end Dominance

theorem nodup_headers : (cs.map (·.made.header)).Nodup := by
  rw [List.Nodup, List.pairwise_map]
  refine hb.arranged.imp_of_mem fun {c d} hc hd h => ?_
  rcases h with h | h
  · exact h.header_ne (hb.ordered d hd) (hb.ordered c hc)
  · have := (hb.ordered d hd).header
    obtain ⟨h₁, h₂, h₃, h₄, h₅⟩ := hb.ordered c hc
    intro he
    have := BlockId.index_inj.2 he
    rw [CountedLoop.Behind] at h
    omega

end Func.Built

/-- What is found of the loop of a call, and what its checks say. -/
structure Call.Recognized (c : Call) (f : Func) (l : Loop) : Prop extends c.Found l where
  parent : match c.around? with
    | none => l.parent? = none
    | some o => ∃ p ∈ f.forest.loops, p.header = o.header ∧ l.parent? = some p.id
  simplified : l.isSimplified
  unguarded : l.guard? = none
  shape : ∀ keepOutputs s,
    ((Checker.builtIn (.ofFunc f) keepOutputs).checkShape l).Yields s () s

theorem Call.headers_eq {f : Func} {cs : List Call} {ls : List Loop}
    (h : List.Forall₂ (fun c l => c.Recognized f l) cs ls) :
    ls.map (·.header) = cs.map (·.made.header) := by
  induction h with
  | nil => rfl
  | cons h _ ih => rw [List.map_cons, List.map_cons, ih, h.header]

namespace Func.Built

variable {f : Func} {cs : List Call} {last : BlockId} (hb : f.Built cs last)

include hb

theorem recognizes {c : Call} {l : Loop} (hc : c ∈ cs) (hl : l ∈ f.forest.loops)
    (hheader : l.header = c.made.header) : c.Recognized f l where
  toFound := (hb.stands hc).found hb.staged hl hheader
  parent := hb.parent hc hl hheader
  simplified := ((hb.stands hc).shaped hb.staged (k := .builtIn (.ofFunc f) true) rfl hl
    hheader).simplified
  unguarded := hb.unguarded hc hl hheader
  shape _ _ := Checker.checkShape_yields.2
    ⟨(hb.stands hc).shaped hb.staged rfl hl hheader, rfl⟩

/-- The loops of the function are those of the calls, one for each. -/
theorem exists_recognized : ∃ ls, ls.Perm f.forest.loops ∧
    List.Forall₂ (fun c l => c.Recognized f l) cs ls := by
  have hf := hb.staged.inArena
  have he := hb.entry
  have hex : ∀ c ∈ cs, ∃ l ∈ f.forest.loops, c.Recognized f l := fun c hc =>
    have ⟨l, hl, hh⟩ := LoopForest.exists_loop hf he (hb.headed_iff.2 ⟨c, hc, rfl⟩)
    ⟨l, hl, hb.recognizes hc hl hh⟩
  obtain ⟨ls, hls, hmem⟩ := exists_forall₂ hex
  refine ⟨ls, ?_, hls⟩
  have hheaders := Call.headers_eq hls
  have hnodup : ls.Nodup := (hheaders ▸ hb.nodup_headers : (ls.map (·.header)).Nodup).of_map _
  refine (List.perm_ext_iff_of_nodup hnodup (LoopForest.nodup_loops hf he)).2 fun l =>
    ⟨hmem l, fun hl => ?_⟩
  obtain ⟨c, hc, hch⟩ := hb.headed_iff.1 (LoopForest.headed hf he hl)
  have hlh : l.header ∈ ls.map (·.header) := by
    rw [hheaders, ← hch]
    exact List.mem_map_of_mem hc
  obtain ⟨k, hk, hkl⟩ := List.mem_map.1 hlh
  rwa [LoopForest.eq_of_header hf he hl (hmem k hk) hkl.symm]

end Func.Built

namespace Program

open Build

/-- The builder when all of the program but the return is written. -/
def written (name : String) (p : Program) : Builder := (p.write.run (.start name)).2

theorem start_ready (name : String) : (Builder.start name).Ready := Nat.zero_lt_one

theorem start_orderly (name : String) : (Builder.start name).func.Orderly := by
  have hempty : (Func.empty name []).Orderly := by
    refine ⟨rfl, fun b hb => absurd hb (Nat.not_lt_zero _), fun b i => ?_, fun b => .nil⟩
    constructor
    · exact fun hi => absurd hi List.not_mem_nil
    · exact fun hi => by cases hi
  exact hempty.addBlock

theorem writes_start {ok : Prop} (name : String) (p : Program)
    (h : ok → p.Scoped [] (.start name)) :
    Writes ok none [] (.start name) (p.calls none (.start name)) (p.write.run (.start name)).1
      (p.written name) :=
  p.writes none [] _ (start_ready name) h

theorem onward (name : String) (p : Program) : (Builder.start name).Onward (p.written name) :=
  (p.writes_start name False.elim).onward (start_ready name)

theorem returns (name : String) (p : Program) : Adds (p.written name)
    (.ret (p.write.run (.start name)).1) ⟨p.func name, (p.written name).current⟩ :=
  adds _ (p.onward name).ready

theorem built (name : String) (p : Program) :
    (p.func name).Built (p.calls none (.start name)) (p.written name).current := by
  have hs := start_ready name
  have hos := start_orderly name
  have hw := p.writes_start name False.elim
  have ht := p.onward name
  have hret := p.returns name
  have hon := hret.onward ht.ready
  have hot := ht.orderly hos
  have hord := hret.orderly hot
  have hsize : (p.func name).blocks.size = (p.written name).func.blocks.size := hret.size
  have hlast : (p.written name).current.index < (p.func name).blocks.size := hon.ready
  have hpos : 0 < (p.func name).blocks.size := Nat.zero_lt_of_lt hlast
  have hfirst : (Builder.start name).func.blocks.size = 1 := rfl
  have hentry : (Builder.start name).current = ⟨0⟩ := rfl
  have hplaced := hw.placed hs
  exact {
    entry := by
      change (p.func name).layout.head? = _
      rw [hord.layout, Func.arena, List.head?_map, List.head?_range, if_neg hpos.ne']
      rfl
    orderly := hord
    code := fun c hc => (hw.code hs hos c hc).kept fun b hb => by
      have hlt := ((hplaced c hc).ordered.of_mem_sources hb).2
      have hle := (hplaced c hc).exit
      refine hon.kept hot (by omega) fun he => ?_
      rw [he] at hlt
      omega
    ordered := fun c hc => (hplaced c hc).ordered
    arranged := hw.arranged hs
    nested := hw.nested hs
    sources := fun b hb => hw.mem_sources hs (by rw [hentry, BlockId.eq_mk]; omega) (by omega)
    targets := fun b hb hlt => hw.mem_targets hs (by omega) (by omega)
    exits := fun c hc => (hplaced c hc).exit
    bounded := hlast
    returns := by
      refine ⟨_, Func.exitOp?_of_getLast? (i := ⟨(p.written name).func.insts.size⟩) ?_
        ((hret.op? _).trans (if_pos rfl)) rfl⟩
      rw [hret.body, if_pos rfl, List.getLast?_concat] }

end Program

end LoopFusion
