import LoopFusion.Proofs.Flow.Preorder
import LoopFusion.Proofs.Flow.Recognized
import LoopFusion.Proofs.Symbolic.Outside

/-!
Loops in a row: each starts where the one before it is left, and each runs some straight-line bodies
one after the other.
-/

namespace LoopFusion

open Relation LoopFusion.Flow

/-- A loop of a row: how it stands now, and the loops, as they were written, whose bodies it
runs. -/
structure Cell where
  made : CountedLoop
  parts : List CountedLoop

namespace Cell

def bodies (c : Cell) : List BlockId := c.parts.map (·.body)

/-- The blocks of the loop and the block behind it, in their order. -/
def blocks (c : Cell) : List BlockId := c.made.header :: (c.bodies ++ [c.made.latch, c.made.exit])

/-- The blocks of a row that is entered from `b`. -/
def line (b : BlockId) (cells : List Cell) : List BlockId := b :: cells.flatMap blocks

/-- Each loop starts where the one before it is left. -/
def Linked : BlockId → List Cell → Prop
  | _, [] => True
  | b, c :: cells => c.made.preheader = b ∧ Linked c.made.exit cells

/-- The block behind all the loops. -/
def last : BlockId → List Cell → BlockId
  | b, [] => b
  | _, c :: cells => last c.made.exit cells

/-- The bodies of a loop run one after the other. -/
structure Threaded (c : Cell) (f : Func) : Prop where
  head : c.bodies[0]? = some c.made.body
  tail : c.bodies[c.parts.length - 1]? = some c.made.tail
  jumps : ∀ j x y, c.bodies[j]? = some x → c.bodies[j + 1]? = some y → f.exitOp? x = some (.br y)

/-- The edges that come with a loop. -/
inductive Arc (c : Cell) : BlockId → BlockId → Prop
  | made {x y : BlockId} : c.made.Arc x y → c.Arc x y
  | next {x y : BlockId} (j : Nat) : c.bodies[j]? = some x → c.bodies[j + 1]? = some y → c.Arc x y

/-- The positions of the blocks of a loop. -/
structure At (c : Cell) (pos : BlockId → Nat) : Prop where
  header : pos c.made.header = pos c.made.preheader + 1
  bodies : ∀ j b, c.bodies[j]? = some b → pos b = pos c.made.preheader + 2 + j
  latch : pos c.made.latch = pos c.made.preheader + 2 + c.parts.length
  exit : pos c.made.exit = pos c.made.preheader + 3 + c.parts.length

variable {b x y : BlockId} {c d : Cell} {cells : List Cell} {f : Func} {pos : BlockId → Nat}
  {n : Nat}

theorem length_bodies : c.bodies.length = c.parts.length := List.length_map _

theorem mem_line (h : Linked b cells) : x ∈ line b cells ↔ x = last b cells ∨
    ∃ c ∈ cells, x = c.made.preheader ∨ x = c.made.header ∨ x ∈ c.bodies ∨ x = c.made.latch := by
  induction cells generalizing b with
  | nil => simp [line, last]
  | cons c cells ih =>
    obtain ⟨rfl, h⟩ := h
    have hline : x ∈ line c.made.preheader (c :: cells) ↔
        (x = c.made.preheader ∨ x = c.made.header ∨ x ∈ c.bodies ∨ x = c.made.latch) ∨
          x ∈ line c.made.exit cells := by
      simp [line, blocks, or_assoc]
    rw [hline, ih h, last, List.exists_mem_cons_iff]
    exact or_left_comm

/-- The blocks are numbered from `n` on. -/
def Numbered (pos : BlockId → Nat) (n : Nat) (bs : List BlockId) : Prop :=
  ∀ j b, bs[j]? = some b → pos b = n + j

theorem Numbered.of_append {bs bs' : List BlockId} (h : Numbered pos n (bs ++ bs')) :
    Numbered pos n bs ∧ Numbered pos (n + bs.length) bs' := by
  refine ⟨fun j b hj => h j b ?_, fun j b hj => ?_⟩
  · rw [List.getElem?_append_left (List.getElem?_eq_some_iff.1 hj).1, hj]
  · rw [h (bs.length + j) b (by rwa [List.getElem?_append_right (Nat.le_add_right ..),
      Nat.add_sub_cancel_left]), Nat.add_assoc]

theorem placed (h : Linked b cells) (hpos : Numbered pos n (line b cells)) :
    (∀ c ∈ cells, c.At pos ∧ n ≤ pos c.made.preheader ∧ pos c.made.exit ≤ pos (last b cells)) ∧
      n ≤ pos (last b cells) ∧
        cells.Pairwise fun c d => pos c.made.exit ≤ pos d.made.preheader := by
  induction cells generalizing b n with
  | nil => simp [last, hpos 0 b rfl]
  | cons c cells ih =>
    obtain ⟨rfl, h⟩ := h
    have hline : line c.made.preheader (c :: cells) = [c.made.preheader, c.made.header] ++
        (c.bodies ++ ([c.made.latch] ++ line c.made.exit cells)) := by
      simp [line, blocks]
    rw [hline] at hpos
    obtain ⟨hhead, hpos⟩ := hpos.of_append
    obtain ⟨hbodies, hpos⟩ := hpos.of_append
    obtain ⟨hlatch, hrest⟩ := hpos.of_append
    rw [length_bodies] at hlatch hrest
    have hfirst : pos c.made.preheader = n := hhead 0 _ rfl
    have hat : c.At pos := {
      header := by rw [hhead 1 _ rfl, hfirst]
      bodies := fun j b hj => by rw [hfirst, hbodies j b hj, List.length_cons, List.length_singleton]
      latch := by rw [hfirst, hlatch 0 _ rfl, List.length_cons, List.length_singleton, Nat.add_zero]
      exit := by
        rw [hfirst, hrest 0 _ rfl]
        simp only [List.length_cons, List.length_nil]
        omega }
    obtain ⟨hall, hlast, hpair⟩ := ih h hrest
    have hexit := hat.exit
    simp only [List.length_cons, List.length_nil] at hall hlast
    rw [last]
    refine ⟨List.forall_mem_cons.2 ⟨⟨hat, hfirst.ge, by omega⟩, fun d hd => ⟨(hall d hd).1, ?_⟩⟩,
      by omega, List.pairwise_cons.2 ⟨fun d hd => ?_, hpair⟩⟩
    · have := (hall d hd).2.1
      exact ⟨by omega, (hall d hd).2.2⟩
    · have := (hall d hd).2.1
      omega

theorem Threaded.nonempty (h : c.Threaded f) : 0 < c.parts.length := by
  have := (List.getElem?_eq_some_iff.1 h.head).1
  rwa [length_bodies] at this

theorem Threaded.next_or_tail (h : c.Threaded f) (hx : x ∈ c.bodies) :
    (∃ j y, c.bodies[j]? = some x ∧ c.bodies[j + 1]? = some y) ∨ x = c.made.tail := by
  obtain ⟨j, hj⟩ := List.mem_iff_getElem?.1 hx
  cases hnext : c.bodies[j + 1]? with
  | some y => exact .inl ⟨j, y, hj, hnext⟩
  | none =>
    have hlt := (List.getElem?_eq_some_iff.1 hj).1
    have hge := List.getElem?_eq_none_iff.1 hnext
    rw [length_bodies] at hlt hge
    obtain rfl : j = c.parts.length - 1 := by omega
    exact .inr (Option.some.inj (hj.symm.trans h.tail))

/-- Every edge but the back edge leads to the next block, or past the loop. -/
theorem Arc.placed (harc : c.Arc x y) (h : c.At pos) (ht : c.Threaded f) :
    pos x = pos c.made.preheader ∧ pos y = pos x + 1 ∨
    pos x = pos c.made.header ∧ (pos y = pos x + 1 ∨ pos y = pos c.made.exit) ∨
    (pos c.made.header < pos x ∧ pos x < pos c.made.latch) ∧ pos y = pos x + 1 ∨
    pos x = pos c.made.latch ∧ pos y = pos c.made.header := by
  have hpos := ht.nonempty
  have hbody := h.bodies 0 _ ht.head
  have htail := h.bodies _ _ ht.tail
  obtain ⟨hheader, hbodies, hlatch, -⟩ := h
  cases harc with
  | next j hx hy =>
    have hlt := (List.getElem?_eq_some_iff.1 hy).1
    rw [length_bodies] at hlt
    have := hbodies j x hx
    have := hbodies (j + 1) y hy
    omega
  | made harc => cases harc <;> omega

end Cell

/-- A row as it was written: its loops in order, and what they have in common. -/
structure Draft where
  func : Func
  loops : List CountedLoop
  start : Value
  bound : Value
  step : Int64

namespace Draft

def call (d : Draft) (m : CountedLoop) : Call := ⟨m, d.start, d.bound, d.step, none⟩

/-- The function runs the bodies of the draft in their order, in the loops of the cells. -/
structure Row (d : Draft) (f : Func) (e : BlockId) (cells : List Cell) : Prop where
  wellFormed : f.WellFormed e
  params : f.params = d.func.params
  parts : cells.flatMap (·.parts) = d.loops
  layout : f.layout = Cell.line e cells
  linked : Cell.Linked e cells
  code : ∀ c ∈ cells, (d.call c.made).In f
  threaded : ∀ c ∈ cells, c.Threaded f
  passes : ∀ c ∈ cells, ∃ i, f.body c.made.preheader = [i]
  returns : ∃ i v, f.body (Cell.last e cells) = [i] ∧ f.op? i = some (.ret v) ∧
    ∀ x ∈ v, x.Outer ∨ ∃ c ∈ cells, x = c.made.iv
  kept : ∀ c ∈ cells, ∀ m ∈ c.parts, f.body m.body = d.func.body m.body ∧
    ∀ i ∈ f.body m.body, f.isTerminator i = d.func.isTerminator i ∧ (¬ d.func.isTerminator i →
      f.op? i = (d.func.op? i).map (.mapOperands (replace m.iv c.made.iv)))

namespace Row

variable {d : Draft} {f : Func} {e x y : BlockId} {cells : List Cell} {a c : Cell} {l : Loop}
  (h : d.Row f e cells)

include h

theorem mem_layout : x ∈ f.layout ↔ x = Cell.last e cells ∨
    ∃ c ∈ cells, x = c.made.preheader ∨ x = c.made.header ∨ x ∈ c.bodies ∨ x = c.made.latch := by
  rw [h.layout, Cell.mem_line h.linked]

theorem mem_layout_of_blocks (hc : c ∈ cells) (hx : x ∈ c.blocks) : x ∈ f.layout := by
  rw [h.layout]
  exact List.mem_cons_of_mem _ (List.mem_flatMap.2 ⟨c, hc, hx⟩)

theorem exitOp?_last : ∃ v, f.exitOp? (Cell.last e cells) = some (.ret v) := by
  obtain ⟨i, v, hbody, hop, -⟩ := h.returns
  exact ⟨v, Func.exitOp?_of_getLast? (by rw [hbody]; rfl) hop rfl⟩

theorem mem_layout_of_sources (hc : c ∈ cells) (hx : x ∈ c.made.sources) : x ∈ f.layout := by
  refine h.mem_layout.2 (.inr ⟨c, hc, ?_⟩)
  simp only [CountedLoop.sources, List.mem_cons, List.not_mem_nil, or_false] at hx
  rcases hx with hx | hx | rfl | hx
  · exact .inl hx
  · exact .inr (.inl hx)
  · exact .inr (.inr (.inl (List.mem_of_getElem? (h.threaded c hc).tail)))
  · exact .inr (.inr (.inr hx))

theorem edge_iff : f.Edge x y ↔ ∃ c ∈ cells, c.Arc x y := by
  constructor
  · intro hxy
    rcases h.mem_layout.1 hxy.1 with rfl | ⟨c, hc, hx⟩
    · obtain ⟨v, hv⟩ := h.exitOp?_last
      exact absurd ((Func.edge_iff hxy.1 hv).1 hxy) List.not_mem_nil
    have ht := h.threaded c hc
    have hmade : x ∈ c.made.sources → c.Arc x y :=
      fun hm => .made (((h.code c hc).edge_iff hxy.1 hm).1 hxy)
    refine ⟨c, hc, ?_⟩
    rcases hx with rfl | rfl | hx | rfl
    · exact hmade (by simp [CountedLoop.sources])
    · exact hmade (by simp [CountedLoop.sources])
    · rcases ht.next_or_tail hx with ⟨j, z, hj, hz⟩ | rfl
      · obtain rfl := List.mem_singleton.1 ((Func.edge_iff hxy.1 (ht.jumps j x z hj hz)).1 hxy)
        exact .next j hj hz
      · exact hmade (by simp [CountedLoop.sources])
    · exact hmade (by simp [CountedLoop.sources])
  · rintro ⟨c, hc, harc⟩
    cases harc with
    | next j hx hy =>
      have hlive := h.mem_layout.2 (.inr ⟨c, hc, .inr (.inr (.inl (List.mem_of_getElem? hx)))⟩)
      have hjump := (h.threaded c hc).jumps j x y hx hy
      exact (Func.edge_iff hlive hjump).2 (List.mem_singleton_self _)
    | made harc =>
      exact ((h.code c hc).edge_iff (h.mem_layout_of_sources hc harc.mem_sources)
        harc.mem_sources).2 harc

theorem places : (∀ c ∈ cells, c.At f.layout.idxOf ∧
    f.layout.idxOf c.made.exit ≤ f.layout.idxOf (Cell.last e cells)) ∧
    cells.Pairwise fun c d => f.layout.idxOf c.made.exit ≤ f.layout.idxOf d.made.preheader := by
  have hpos : ∀ j x, (Cell.line e cells)[j]? = some x → f.layout.idxOf x = 0 + j := by
    intro j x hj
    rw [← h.layout] at hj
    obtain ⟨hlt, rfl⟩ := List.getElem?_eq_some_iff.1 hj
    rw [h.wellFormed.nodup.idxOf_getElem, Nat.zero_add]
  obtain ⟨hat, -, hpair⟩ := Cell.placed h.linked hpos
  exact ⟨fun c hc => ⟨(hat c hc).1, (hat c hc).2.2⟩, hpair⟩

theorem placed (hc : c ∈ cells) : c.At f.layout.idxOf := (h.places.1 c hc).1

theorem apart (hc : c ∈ cells) (ha : a ∈ cells) : c = a ∨
    f.layout.idxOf c.made.exit ≤ f.layout.idxOf a.made.preheader ∨
      f.layout.idxOf a.made.exit ≤ f.layout.idxOf c.made.preheader := by
  have hsymm : Std.Symm fun c a : Cell => c = a ∨
      f.layout.idxOf c.made.exit ≤ f.layout.idxOf a.made.preheader ∨
        f.layout.idxOf a.made.exit ≤ f.layout.idxOf c.made.preheader :=
    ⟨fun c a h => h.imp Eq.symm Or.symm⟩
  have hpair : cells.Pairwise fun c a => c = a ∨
      f.layout.idxOf c.made.exit ≤ f.layout.idxOf a.made.preheader ∨
        f.layout.idxOf a.made.exit ≤ f.layout.idxOf c.made.preheader :=
    h.places.2.imp fun h => .inr (.inl h)
  exact hpair.forall_of_forall (fun _ _ => .inl rfl) hc ha

theorem staged : f.Staged e f.layout.idxOf where
  entry := h.wellFormed.entry
  inArena := h.wellFormed.inArena
  closed x y hxy := by
    obtain ⟨c, hc, harc⟩ := h.edge_iff.1 hxy
    have ht := h.threaded c hc
    refine h.mem_layout_of_blocks hc ?_
    simp only [Cell.blocks, List.mem_cons, List.mem_append, List.not_mem_nil, or_false]
    cases harc with
    | next j _ hy => exact .inr (.inl (List.mem_of_getElem? hy))
    | made harc =>
      cases harc with
      | enter => exact .inl rfl
      | body => exact .inr (.inl (List.mem_of_getElem? ht.head))
      | exit => exact .inr (.inr (.inr rfl))
      | latch => exact .inr (.inr (.inl rfl))
      | back => exact .inl rfl
  inj x hx y _ hxy := (List.idxOf_inj hx).1 hxy
  descend x hx hne := by
    rw [h.layout] at hx
    obtain ⟨c, hc, hx⟩ := List.mem_flatMap.1 ((List.mem_cons.1 hx).resolve_left hne)
    obtain ⟨hheader, hbodies, hlatch, hexit⟩ := h.placed hc
    have ht := h.threaded c hc
    have hpos := ht.nonempty
    have htail := hbodies _ _ ht.tail
    have hedge : ∀ {y}, c.Arc y x → f.Edge y x := fun harc => h.edge_iff.2 ⟨c, hc, harc⟩
    simp only [Cell.blocks, List.mem_cons, List.mem_append, List.not_mem_nil, or_false] at hx
    rcases hx with rfl | hx | rfl | rfl
    · exact ⟨_, hedge (.made .enter), by omega⟩
    · obtain ⟨j, hj⟩ := List.mem_iff_getElem?.1 hx
      have hxj := hbodies j x hj
      cases j with
      | zero =>
        obtain rfl := Option.some.inj (hj.symm.trans ht.head)
        exact ⟨_, hedge (.made .body), by omega⟩
      | succ j =>
        have hlt := (List.getElem?_eq_some_iff.1 hj).1
        have hprev := List.getElem?_eq_getElem (Nat.lt_of_succ_lt hlt)
        have := hbodies j _ hprev
        exact ⟨_, hedge (.next j hprev hj), by omega⟩
    · exact ⟨_, hedge (.made .latch), by omega⟩
    · exact ⟨_, hedge (.made .exit), by omega⟩

theorem arc_or (hc : c ∈ cells) (hxy : f.Edge x y) : c.Arc x y ∨
    (f.layout.idxOf x < f.layout.idxOf c.made.preheader ∧
      f.layout.idxOf y ≤ f.layout.idxOf c.made.preheader) ∨
    (f.layout.idxOf c.made.exit ≤ f.layout.idxOf x ∧
      f.layout.idxOf c.made.exit < f.layout.idxOf y) := by
  obtain ⟨a, ha, harc⟩ := h.edge_iff.1 hxy
  have hcases := harc.placed (h.placed ha) (h.threaded a ha)
  obtain ⟨hheader, -, hlatch, hexit⟩ := h.placed ha
  rcases h.apart hc ha with rfl | hapart
  · exact .inl harc
  · omega

theorem walk_before (hc : c ∈ cells) (hw : Walk f.Edge (· ≠ c.made.header) x y)
    (hx : f.layout.idxOf x ≤ f.layout.idxOf c.made.preheader) :
    f.layout.idxOf y ≤ f.layout.idxOf c.made.preheader := by
  induction hw with
  | refl => exact hx
  | @tail y z _ hyz hz ih =>
    obtain ⟨hheader, -, hlatch, hexit⟩ := h.placed hc
    rcases h.arc_or hc hyz with harc | hlt | hlt
    · have hcases := harc.placed (h.placed hc) (h.threaded c hc)
      have hne : f.layout.idxOf z ≠ f.layout.idxOf c.made.header := fun he =>
        hz ((List.idxOf_inj (h.staged.closed y z hyz)).1 he)
      omega
    · exact hlt.2
    · omega

theorem idxOf_entry : f.layout.idxOf e = 0 := by rw [h.layout, Cell.line, List.idxOf_cons_self]

theorem dom_header (hc : c ∈ cells) (hx : x ∈ f.layout)
    (hlt : f.layout.idxOf c.made.preheader < f.layout.idxOf x) :
    Dom f.Edge e c.made.header x := by
  refine ⟨h.staged.leads hx, fun hw => ?_⟩
  have := h.walk_before hc hw (by rw [h.idxOf_entry]; exact Nat.zero_le _)
  omega

theorem mem_bodies (hc : c ∈ cells) (hx : x ∈ f.layout)
    (hlt : f.layout.idxOf c.made.header < f.layout.idxOf x)
    (hlt' : f.layout.idxOf x < f.layout.idxOf c.made.latch) : x ∈ c.bodies := by
  obtain ⟨hheader, -, hlatch, hexit⟩ := h.placed hc
  rw [h.layout] at hx
  rcases List.mem_cons.1 hx with rfl | hx
  · rw [h.idxOf_entry] at hlt
    omega
  obtain ⟨a, ha, hx⟩ := List.mem_flatMap.1 hx
  obtain ⟨hheader', hbodies', hlatch', hexit'⟩ := h.placed ha
  simp only [Cell.blocks, List.mem_cons, List.mem_append, List.not_mem_nil, or_false] at hx
  rcases h.apart hc ha with rfl | hapart
  · rcases hx with rfl | hx | rfl | rfl
    · omega
    · exact hx
    · omega
    · omega
  · exfalso
    rcases hx with rfl | hx | rfl | rfl
    · omega
    · obtain ⟨j, hj⟩ := List.mem_iff_getElem?.1 hx
      have hlen := (List.getElem?_eq_some_iff.1 hj).1
      rw [Cell.length_bodies] at hlen
      have := hbodies' j x hj
      omega
    · omega
    · omega

theorem onward (hc : c ∈ cells) (hx : x ∈ c.bodies) :
    ∃ y, f.Edge x y ∧ f.layout.idxOf y = f.layout.idxOf x + 1 ∧
      f.layout.idxOf y ≤ f.layout.idxOf c.made.latch := by
  obtain ⟨hheader, hbodies, hlatch, -⟩ := h.placed hc
  have ht := h.threaded c hc
  obtain ⟨j, hj⟩ := List.mem_iff_getElem?.1 hx
  have hlen := (List.getElem?_eq_some_iff.1 hj).1
  rw [Cell.length_bodies] at hlen
  have hxj := hbodies j x hj
  cases hnext : c.bodies[j + 1]? with
  | some z =>
    have hz := hbodies (j + 1) z hnext
    have hlen' := (List.getElem?_eq_some_iff.1 hnext).1
    rw [Cell.length_bodies] at hlen'
    exact ⟨z, h.edge_iff.2 ⟨c, hc, .next j hj hnext⟩, by omega, by omega⟩
  | none =>
    have hge := List.getElem?_eq_none_iff.1 hnext
    rw [Cell.length_bodies] at hge
    obtain rfl : j = c.parts.length - 1 := by omega
    obtain rfl := Option.some.inj (hj.symm.trans ht.tail)
    exact ⟨_, h.edge_iff.2 ⟨c, hc, .made .latch⟩, by omega, le_rfl⟩

theorem leads_on (hc : c ∈ cells) (hx : x = c.made.preheader ∨ x = c.made.header ∨
    x ∈ c.bodies ∨ x = c.made.latch) : ∃ y, f.Edge x y := by
  have hedge : ∀ {x y}, c.made.Arc x y → f.Edge x y := fun harc =>
    h.edge_iff.2 ⟨c, hc, .made harc⟩
  rcases hx with rfl | rfl | hx | rfl
  · exact ⟨_, hedge .enter⟩
  · exact ⟨_, hedge .exit⟩
  · obtain ⟨y, hy, -⟩ := h.onward hc hx
    exact ⟨y, hy⟩
  · exact ⟨_, hedge .back⟩

/-- Whenever a loop of the row runs, so does one behind it. -/
theorem postDom (ha : a ∈ cells) (hc : c ∈ cells)
    (hle : f.layout.idxOf a.made.exit ≤ f.layout.idxOf c.made.preheader) :
    PostDom f e c.made.header a.made.header := by
  obtain ⟨hheader, -, hlatch, hexit⟩ := h.placed ha
  obtain ⟨hheader', -, hlatch', hexit'⟩ := h.placed hc
  have hlast := (h.places.1 c hc).2
  have hmem : Cell.last e cells ∈ f.layout := h.mem_layout.2 (.inl rfl)
  have hret : ∀ r, f.Returns r → r = Cell.last e cells := by
    rintro r hr
    refine (h.mem_layout.1 hr.1).resolve_right ?_
    rintro ⟨m, hm, hx⟩
    obtain ⟨y, hy⟩ := h.leads_on hm hx
    exact hr.no_edge hy
  refine ⟨⟨Cell.last e cells, ⟨hmem, ?_⟩, h.staged.leads hmem, ?_⟩, fun r hr _ hw => ?_⟩
  · obtain ⟨v, hv⟩ := h.exitOp?_last
    rw [hv]
    rfl
  · exact (h.dom_header ha hmem (by omega)).reach_between
  · rw [hret r hr] at hw
    have := h.walk_before hc hw (by omega)
    omega

theorem span (hc : c ∈ cells) : f.Span e f.layout.idxOf c.made.header c.made.latch := by
  have hplaced := fun {x y} (harc : c.Arc x y) =>
    harc.placed (h.placed hc) (h.threaded c hc)
  obtain ⟨hheader, -, hlatch, hexit⟩ := h.placed hc
  have hback : f.Edge c.made.latch c.made.header := h.edge_iff.2 ⟨c, hc, .made .back⟩
  have hlive := h.staged.closed _ _ hback
  refine ⟨hback, by rw [h.idxOf_entry]; omega, by omega,
    fun x y hxy hout hle hle' => ?_, fun x hx hle => ?_, fun x hx hlt hlt' => ?_⟩
  · refine h.staged.inj y (h.staged.closed x y hxy) _ hlive ?_
    rcases h.arc_or hc hxy with harc | hlt | hlt
    · have := hplaced harc
      omega
    · omega
    · omega
  · refine h.staged.inj x hx.1 _ hback.1 ?_
    rcases h.arc_or hc hx with harc | hlt | hlt
    · have := hplaced harc
      omega
    · omega
    · omega
  · obtain ⟨y, hy, hsucc, hle⟩ := h.onward hc (h.mem_bodies hc hx hlt hlt')
    have hne : ∀ {z}, f.layout.idxOf c.made.header < f.layout.idxOf z → z ≠ c.made.header :=
      fun h he => Nat.lt_irrefl _ (he ▸ h)
    exact ⟨y, .single hy (hne hlt) (hne (by omega)), by omega, hle⟩

theorem stands (hc : c ∈ cells) : (d.call c.made).Stands f e f.layout.idxOf := by
  have ht := h.threaded c hc
  have hplaced := fun {x y} (harc : c.Arc x y) => harc.placed (h.placed hc) ht
  obtain ⟨hheader, hbodies, hlatch, hexit⟩ := h.placed hc
  have hbody := hbodies _ _ ht.head
  have hlen := ht.nonempty
  have henter : f.Edge c.made.preheader c.made.header := h.edge_iff.2 ⟨c, hc, .made .enter⟩
  have hleave : f.Edge c.made.header c.made.exit := h.edge_iff.2 ⟨c, hc, .made .exit⟩
  have hfirst : ∀ q, f.Edge q c.made.header →
      f.layout.idxOf q < f.layout.idxOf c.made.header → q = c.made.preheader := by
    intro q hq hlt
    refine h.staged.inj q hq.1 _ henter.1 ?_
    rcases h.arc_or hc hq with harc | hlt | hlt
    · have := hplaced harc
      omega
    · omega
    · omega
  have hlast : ∀ x y, f.Edge x y → f.layout.idxOf c.made.header ≤ f.layout.idxOf x →
      f.layout.idxOf x ≤ f.layout.idxOf c.made.latch →
      ¬ (f.layout.idxOf c.made.header ≤ f.layout.idxOf y ∧
        f.layout.idxOf y ≤ f.layout.idxOf c.made.latch) →
      x = c.made.header ∧ y = c.made.exit := by
    intro x y hxy hle hle' hout
    have hpos : f.layout.idxOf x = f.layout.idxOf c.made.header ∧
        f.layout.idxOf y = f.layout.idxOf c.made.exit := by
      rcases h.arc_or hc hxy with harc | hlt | hlt
      · have := hplaced harc
        omega
      · omega
      · omega
    exact ⟨h.staged.inj x hxy.1 _ hleave.1 hpos.1,
      h.staged.inj y (h.staged.closed x y hxy) _ (h.staged.closed _ _ hleave) hpos.2⟩
  have horder : f.layout.idxOf c.made.header < f.layout.idxOf c.made.body ∧
      f.layout.idxOf c.made.body ≤ f.layout.idxOf c.made.latch ∧
      f.layout.idxOf c.made.latch < f.layout.idxOf c.made.exit := by omega
  exact ⟨h.code c hc, h.span hc, hheader.ge, horder.1, horder.2.1, horder.2.2, hfirst, henter.1,
    hlast⟩

theorem inLoop_iff (hc : c ∈ cells) : f.InLoop e c.made.header x ↔
    x = c.made.header ∨ x ∈ c.bodies ∨ x = c.made.latch := by
  obtain ⟨hheader, hbodies, hlatch, -⟩ := h.placed hc
  rw [(h.span hc).inLoop_iff h.staged]
  constructor
  · rintro ⟨hx, hle, hle'⟩
    by_cases hfirst : f.layout.idxOf x = f.layout.idxOf c.made.header
    · exact .inl ((List.idxOf_inj hx).1 hfirst)
    by_cases hlast : f.layout.idxOf x = f.layout.idxOf c.made.latch
    · exact .inr (.inr ((List.idxOf_inj hx).1 hlast))
    exact .inr (.inl (h.mem_bodies hc hx (by omega) (by omega)))
  · intro hx
    refine ⟨h.mem_layout.2 (.inr ⟨c, hc, .inr hx⟩), ?_⟩
    rcases hx with rfl | hx | rfl
    · omega
    · obtain ⟨j, hj⟩ := List.mem_iff_getElem?.1 hx
      have hlen := (List.getElem?_eq_some_iff.1 hj).1
      rw [Cell.length_bodies] at hlen
      have := hbodies j x hj
      omega
    · omega

theorem header_in (hc : c ∈ cells) : f.InLoop e c.made.header c.made.header :=
  (h.inLoop_iff hc).2 (.inl rfl)

theorem body_in (hc : c ∈ cells) (hx : x ∈ c.bodies) : f.InLoop e c.made.header x :=
  (h.inLoop_iff hc).2 (.inr (.inl hx))

theorem latch_in (hc : c ∈ cells) : f.InLoop e c.made.header c.made.latch :=
  (h.inLoop_iff hc).2 (.inr (.inr rfl))

theorem headed_iff : f.InLoop e x x ↔ ∃ c ∈ cells, c.made.header = x := by
  constructor
  · rintro ⟨l, hback, -⟩
    obtain ⟨c, hc, harc⟩ := h.edge_iff.1 hback.edge
    refine ⟨c, hc, ?_⟩
    have hle := h.staged.le_of_dom hback.dom hback.edge.1
    have hplaced := harc.placed (h.placed hc) (h.threaded c hc)
    obtain ⟨hheader, -, hlatch, hexit⟩ := h.placed hc
    have henter : f.Edge c.made.preheader c.made.header := h.edge_iff.2 ⟨c, hc, .made .enter⟩
    exact h.staged.inj _ (h.staged.closed _ _ henter) x (h.staged.closed _ _ hback.edge) (by omega)
  · rintro ⟨c, hc, rfl⟩
    exact h.header_in hc

theorem eq_of_inLoop (hc : c ∈ cells) (ha : a ∈ cells) (hx : f.InLoop e c.made.header x)
    (hx' : f.InLoop e a.made.header x) : c = a := by
  obtain ⟨-, hle, hle'⟩ := ((h.span hc).inLoop_iff h.staged).1 hx
  obtain ⟨-, hge, hge'⟩ := ((h.span ha).inLoop_iff h.staged).1 hx'
  obtain ⟨hheader, -, hlatch, hexit⟩ := h.placed hc
  obtain ⟨hheader', -, hlatch', hexit'⟩ := h.placed ha
  refine (h.apart hc ha).resolve_right fun hapart => ?_
  omega

theorem exists_loop (hc : c ∈ cells) : ∃ l ∈ f.forest.loops, l.header = c.made.header :=
  LoopForest.exists_loop h.staged.inArena h.staged.entry (h.headed_iff.2 ⟨c, hc, rfl⟩)

theorem exists_cell (hl : l ∈ f.forest.loops) : ∃ c ∈ cells, l.header = c.made.header := by
  obtain ⟨c, hc, hch⟩ := h.headed_iff.1 (LoopForest.headed h.staged.inArena h.staged.entry hl)
  exact ⟨c, hc, hch.symm⟩

theorem parent (hl : l ∈ f.forest.loops) : l.parent? = none := by
  obtain ⟨c, hc, hlc⟩ := h.exists_cell hl
  refine (LoopForest.parent?_eq_none_iff h.staged.inArena h.staged.entry hl).2 fun q hq => ?_
  obtain ⟨a, ha, rfl⟩ := h.headed_iff.1 hq.header
  rw [hlc] at hq ⊢
  rw [h.eq_of_inLoop ha hc hq (h.headed_iff.2 ⟨c, hc, rfl⟩)]

/-- Nothing goes past a loop of a row. -/
theorem unguarded (hc : c ∈ cells) (hl : l ∈ f.forest.loops) (hlc : l.header = c.made.header) :
    l.guard? = none := by
  refine (h.stands hc).unguarded h.staged hl hlc fun g o hg ho => ?_
  change f.Edge g c.made.preheader at hg
  change ∀ y, f.Edge g y ↔ y = c.made.preheader ∨ y = o at ho
  change o ≠ c.made.exit ∧ f.exitOp? c.made.exit ≠ some (.br o)
  obtain ⟨a, ha, harc⟩ := h.edge_iff.1 hg
  have hta := h.threaded a ha
  have hplaced := harc.placed (h.placed ha) hta
  obtain ⟨hheader, -, hlatch, hexit⟩ := h.placed hc
  obtain ⟨hheader', hbodies', hlatch', hexit'⟩ := h.placed ha
  have hbody := hbodies' _ _ hta.head
  have hlen := hta.nonempty
  have hapart := h.apart hc ha
  -- what leads to the preheader is the header of the loop before, which leads to its body, too
  have hexit : f.Edge a.made.header a.made.exit := h.edge_iff.2 ⟨a, ha, .made .exit⟩
  have hin : f.Edge a.made.header a.made.body := h.edge_iff.2 ⟨a, ha, .made .body⟩
  have hga : f.layout.idxOf g = f.layout.idxOf a.made.header ∧
      f.layout.idxOf a.made.exit ≤ f.layout.idxOf c.made.preheader := by
    rcases hapart with rfl | hapart
    · omega
    · omega
  obtain rfl := h.staged.inj g hg.1 _ hin.1 hga.1
  rcases (ho _).1 hin with heq | rfl
  · rw [← heq] at hga
    omega
  refine ⟨fun heq => ?_, fun hop => ?_⟩
  · rw [heq] at hbody
    omega
  · have hback : f.Edge c.made.exit a.made.body :=
      (Func.edge_iff (h.mem_layout_of_blocks hc (by simp [Cell.blocks])) hop).2
        (List.mem_singleton_self _)
    rcases h.arc_or ha hback with harc | hlt | hlt
    · have := harc.placed (h.placed ha) hta
      omega
    · omega
    · omega

theorem exists_layout_eq (hc : c ∈ cells) : ∃ s t,
    f.layout = s ++ (c.made.header :: (c.bodies ++ [c.made.latch]) ++ t) := by
  obtain ⟨s, t, rfl⟩ := List.append_of_mem hc
  refine ⟨Cell.line e s, c.made.exit :: t.flatMap Cell.blocks, ?_⟩
  rw [h.layout]
  simp [Cell.line, Cell.blocks]

theorem blocks_eq (hc : c ∈ cells) (hl : l ∈ f.forest.loops) (hlc : l.header = c.made.header) :
    l.blocks = c.made.header :: (c.bodies ++ [c.made.latch]) := by
  have hcontains : ∀ x, l.contains x ↔ x ∈ c.made.header :: (c.bodies ++ [c.made.latch]) := by
    intro x
    rw [LoopForest.contains_iff h.staged.inArena h.staged.entry hl, hlc, h.inLoop_iff hc]
    simp
  have hn := h.wellFormed.nodup
  rw [LoopForest.blocks_eq_filter hn hl]
  obtain ⟨s, t, hlayout⟩ := h.exists_layout_eq hc
  rw [hlayout, List.nodup_append, List.nodup_append] at hn
  obtain ⟨-, ⟨-, -, hdisj⟩, hdisj'⟩ := hn
  have hs : s.filter l.contains = [] := List.filter_eq_nil_iff.2 fun x hx hin =>
    hdisj' x hx x (List.mem_append_left _ ((hcontains x).1 hin)) rfl
  have ht : t.filter l.contains = [] := List.filter_eq_nil_iff.2 fun x hx hin =>
    hdisj x ((hcontains x).1 hin) x hx rfl
  rw [hlayout, List.filter_append, List.filter_append, hs, ht,
    List.filter_eq_self.2 fun x hx => (hcontains x).2 hx, List.nil_append, List.append_nil]

theorem bodyBlocks_eq (hc : c ∈ cells) (hl : l ∈ f.forest.loops)
    (hlc : l.header = c.made.header) : l.bodyBlocks = c.bodies := by
  have hn : (c.made.header :: (c.bodies ++ [c.made.latch])).Nodup := by
    obtain ⟨s, t, hlayout⟩ := h.exists_layout_eq hc
    have := h.wellFormed.nodup
    rw [hlayout, List.nodup_append, List.nodup_append] at this
    exact this.2.1.1
  obtain ⟨hhead, hn⟩ := List.nodup_cons.1 hn
  obtain ⟨-, -, hdisj⟩ := List.nodup_append.1 hn
  have hlatches := ((h.stands hc).found h.staged hl hlc).latches
  rw [Loop.bodyBlocks, h.blocks_eq hc hl hlc, hlc, hlatches, List.filter_cons_of_neg (by simp),
    List.filter_append, List.filter_eq_self.2 fun x hx => ?_, List.filter_cons_of_neg ?_]
  · simp
  · simp [Draft.call]
  · have hne : x ≠ c.made.header := fun he => hhead (he ▸ List.mem_append_left _ hx)
    have hne' := hdisj x hx c.made.latch (List.mem_singleton_self _)
    simp [Draft.call, hne, hne']

end Row

end Draft

end LoopFusion
