import LoopFusion.Proofs.Fusion.FusedVerified
import LoopFusion.Proofs.Fusion.RowPlan

/-!
Fusing two loops of a row leaves a row in which the bodies of both run in one loop.
-/

namespace LoopFusion

open Relation LoopFusion.Flow

theorem filter_not_contains {α : Type} [DecidableEq α] {l m : List α} (h : l.Disjoint m) :
    l.filter (fun b => !m.contains b) = l :=
  List.filter_eq_self.2 fun a ha => by simpa using h ha

/-- Drop three elements, and put what stood between two of them in front of `x`. -/
theorem settled_eq {α : Type} [DecidableEq α] {A B C : List α} {x y u w : α}
    (hn : (A ++ x :: y :: u :: (B ++ w :: C)).Nodup) :
    let kept := (A ++ x :: y :: u :: (B ++ w :: C)).filter fun b => !([y, u, w].contains b)
    let rest := kept.filter fun b => !B.contains b
    rest.takeWhile (· ≠ x) ++ B ++ rest.dropWhile (· ≠ x) = A ++ B ++ x :: C := by
  intro kept rest
  simp only [List.nodup_append', List.nodup_cons, List.mem_append, List.mem_cons, not_or,
    List.disjoint_cons_right, List.disjoint_append_right] at hn
  obtain ⟨-, ⟨⟨hxy, hxu, hxB, hxw, -⟩, ⟨-, hyB, -, hyC⟩, ⟨huB, -, huC⟩, -, ⟨hwC, -⟩, hwB, hBC⟩,
    hxA, hyA, huA, hAB, hwA, -⟩ := hn
  have hkept : kept = A ++ x :: (B ++ C) := by
    have hA : A.Disjoint [y, u, w] := by simp [hyA, huA, hwA]
    have hB : B.Disjoint [y, u, w] := by simp [hyB, huB, hwB]
    have hC : C.Disjoint [y, u, w] := by simp [hyC, huC, hwC]
    simp only [kept, List.filter_append, List.filter_cons, filter_not_contains hA,
      filter_not_contains hB, filter_not_contains hC]
    simp [hxy, hxu, hxw]
  have hrest : rest = A ++ x :: C := by
    have hB : B.filter (fun b => !B.contains b) = [] := by simp
    simp only [rest, hkept, List.filter_append, List.filter_cons, filter_not_contains hAB, hB,
      filter_not_contains hBC.symm]
    simp [hxB]
  have hA : ∀ a ∈ A, decide (a ≠ x) = true := fun a ha => decide_eq_true fun he => hxA (he ▸ ha)
  rw [hrest, List.takeWhile_append_of_pos hA, List.dropWhile_append_of_pos hA]
  simp

namespace Cell

variable {b x y : BlockId} {a c : Cell} {s t cells : List Cell} {f : Func}

/-- One loop that runs the bodies of two. -/
def merge (a c : Cell) : Cell :=
  ⟨⟨a.made.preheader, a.made.header, a.made.body, c.made.tail, a.made.latch, c.made.exit, a.made.iv,
    a.made.next⟩, a.parts ++ c.parts⟩

theorem bodies_merge : (a.merge c).bodies = a.bodies ++ c.bodies := List.map_append ..

theorem blocks_merge : (a.merge c).blocks =
    a.made.header :: (a.bodies ++ c.bodies ++ [a.made.latch, c.made.exit]) := by
  rw [blocks, bodies_merge]
  rfl

theorem linked_append : Linked b (s ++ t) ↔ Linked b s ∧ Linked (last b s) t := by
  induction s generalizing b with
  | nil => simp [Linked, last]
  | cons c s ih => rw [List.cons_append, Linked, Linked, last, ih, and_assoc]

theorem last_append : last b (s ++ t) = last (last b s) t := by
  induction s generalizing b with
  | nil => rfl
  | cons c s ih => rw [List.cons_append, last, last, ih]

theorem linked_merge (h : Linked b (s ++ a :: c :: t)) : Linked b (s ++ a.merge c :: t) := by
  rw [linked_append] at h ⊢
  exact ⟨h.1, h.2.1, h.2.2.2⟩

theorem last_merge : last b (s ++ a.merge c :: t) = last b (s ++ a :: c :: t) := by
  rw [last_append, last_append]
  rfl

end Cell

/-- The shape is that of a written loop. -/
structure LoopShape.Shows (s : LoopShape) (m : CountedLoop) : Prop where
  header : s.header = m.header
  latch : s.latch = m.latch
  preheader : s.preheader = m.preheader
  bodyHead : s.bodyHead = m.body
  bodyTail : s.bodyTail = m.tail
  exit : s.exit = m.exit
  iv : m.iv = .inst s.iv

namespace FusionPlan

variable {p : FusionPlan} {f : Func} {e x y : BlockId} {op : Operation} {i : InstId}

/-- The plan is for the loops of two cells. -/
structure Joins (p : FusionPlan) (a c : Cell) : Prop where
  first : p.first.Shows a.made
  second : p.second.Shows c.made
  secondBody : p.secondBody = c.bodies

theorem fusedOp_of_plain (h : op.Plain) : p.fusedOp x op = op.mapOperands p.renamed := by
  rw [fusedOp_of_not_terminator h.2,
    Operation.mapIncoming_of_not_phi _ (by simpa using h.1)]

theorem mapOperands_renamed (h : ∀ v ∈ op.operands, v ≠ .inst p.second.iv) :
    op.mapOperands p.renamed = op := by
  have hsame : ∀ v ∈ op.operands, p.renamed v = id v := fun v hv => renamed_of_ne (h v hv)
  rw [Operation.mapOperands_congr hsame, Operation.mapOperands_id]

theorem fusedOp_of_relabel (h : ∀ v ∈ op.operands, v ≠ .inst p.second.iv)
    (hlabel : p.relabel x = id) : p.fusedOp x op = op.mapTargets (p.retarget x) := by
  rw [fusedOp, mapOperands_renamed h, hlabel]
  cases op <;> simp [Operation.mapIncoming, Operation.mapTargets]

theorem fusedOp_of_not_phi (h : ∀ v ∈ op.operands, v ≠ .inst p.second.iv) (hphi : ¬ op.isPhi) :
    p.fusedOp x op = op.mapTargets (p.retarget x) := by
  rw [fusedOp, mapOperands_renamed h, Operation.mapIncoming_of_not_phi _ (by simpa using hphi)]

theorem relabel_eq_id (hbody : x ≠ p.second.bodyHead) (hlatch : x ≠ p.first.latch) :
    p.relabel x = id := by
  simp [relabel, hlatch, hbody]

section Targets

variable (hp : p.Fits f e)

include hp

theorem retarget_outside (hx : f.Leads e x) (ha : ¬ f.InLoop e p.first.header x)
    (hb : ¬ f.InLoop e p.second.header x) : p.retarget x = id := by
  have hred := hp.not_redirected_of_reach hx
  have hheader : x ≠ p.first.header := fun he => ha (he ▸ hp.first.header_in)
  have htail : x ≠ p.first.bodyTail := fun he => ha (he ▸ hp.first.tail_in)
  have htail' : x ≠ p.second.bodyTail := fun he => hb (he ▸ hp.second.tail_in)
  simp [retarget, hred, hheader, htail, htail']

theorem retarget_first (hy : f.InLoop e p.first.header y) (hne : y ≠ p.first.latch) :
    p.retarget x y = y :=
  retarget_eq_self (fun _ he => hp.preheader_out (he ▸ hy)) (fun _ => hne)
    fun _ he => hp.apart y hy (he ▸ hp.second.latch_in)

theorem retarget_second (hy : f.InLoop e p.second.header y) (hne : y ≠ p.second.latch) :
    p.retarget x y = y :=
  retarget_eq_self (fun _ he => hp.second.preheader_out (he ▸ hy))
    (fun _ he => hp.apart y (he ▸ hp.first.latch_in) hy) fun _ => hne

end Targets

end FusionPlan

namespace Draft.Row

variable {d : Draft} {f : Func} {e x y : BlockId} {cells s t : List Cell} {a b c : Cell}
  {l l' : Loop} {i j : InstId} {p : FusionPlan}

/-- The second of two loops stands right behind the first if it starts where that one is left. -/
theorem exists_split (h : d.Row f e cells) (ha : a ∈ cells) (hb : b ∈ cells)
    (hab : a.made.exit = b.made.preheader) : ∃ s t, cells = s ++ a :: b :: t := by
  obtain ⟨s, t, rfl⟩ := List.append_of_mem ha
  have hexit := (h.placed ha).exit
  have hlinked := (Cell.linked_append.1 h.linked).2
  have hcell : ∀ c ∈ s ++ a :: t, c.made.preheader = b.made.preheader → c = b := by
    intro c hc hpre
    have hlt := (h.placed hc).exit
    have hlt' := (h.placed hb).exit
    refine (h.apart hc hb).resolve_right fun hapart => ?_
    rw [hpre] at hapart hlt
    omega
  cases t with
  | nil =>
    have hplaces := (List.pairwise_append.1 h.places.2).2.2
    have hbs : b ∈ s := by
      rcases List.mem_append.1 hb with hb | hb
      · exact hb
      · rw [List.mem_singleton.1 hb] at hab
        rw [hab] at hexit
        omega
    have hle := hplaces b hbs a (List.mem_singleton_self _)
    have hexit' := (h.placed hb).exit
    rw [hab] at hexit
    omega
  | cons c t =>
    have hc := hcell c (by simp) (hlinked.2.1.trans hab)
    exact ⟨s, t, by rw [hc]⟩

theorem exists_joins (h : d.Row f e cells) (hp : p.Accepted f e l l') :
    ∃ s a b t, cells = s ++ a :: b :: t ∧ p.Joins a b := by
  obtain ⟨a, ha, hla⟩ := h.exists_cell hp.first
  obtain ⟨b, hb, hlb⟩ := h.exists_cell hp.second
  have hshape : ∀ {c : Cell} {l : Loop} {s : LoopShape}, c ∈ cells → l ∈ f.forest.loops →
      l.header = c.made.header → s.Of f l → s.Shows c.made := by
    intro c l s hc hl hlc hs
    obtain ⟨iv, -, -, hiv, -⟩ := h.header hc
    obtain ⟨next, -, hnext, -⟩ := h.latch hc
    have hshape := (h.shape_of hc hl hlc hiv hnext).ofLoop_eq
    obtain rfl := Except.ok.inj (hs.ofLoop_eq.symm.trans hshape)
    exact ⟨rfl, rfl, rfl, rfl, rfl, rfl, hiv⟩
  have hfirst := hshape ha hp.first hla hp.plan.first
  have hsecond := hshape hb hp.second hlb hp.plan.second
  have hab : a.made.exit = b.made.preheader := by
    rw [← hfirst.exit, ← hsecond.preheader, hp.meets]
  obtain ⟨s, t, hcells⟩ := h.exists_split ha hb hab
  exact ⟨s, a, b, t, hcells, hfirst, hsecond,
    hp.plan.secondBody.trans (h.bodyBlocks_eq hb hp.second hlb)⟩

theorem ne_of_mem_bodies (h : d.Row f e cells) (hc : c ∈ cells) (hx : x ∈ c.bodies) :
    x ≠ c.made.header ∧ x ≠ c.made.latch := by
  obtain ⟨hheader, hbodies, hlatch, -⟩ := h.placed hc
  obtain ⟨j, hj⟩ := List.mem_iff_getElem?.1 hx
  have hlen := (List.getElem?_eq_some_iff.1 hj).1
  rw [Cell.length_bodies] at hlen
  have hpos := hbodies j x hj
  constructor <;> rintro rfl <;> omega

theorem header_ne_latch (h : d.Row f e cells) (hc : c ∈ cells) : c.made.header ≠ c.made.latch := by
  obtain ⟨hheader, -, hlatch, -⟩ := h.placed hc
  intro he
  rw [← he] at hlatch
  omega

theorem nodup (h : d.Row f e cells) : cells.Nodup := by
  refine h.places.2.imp_of_mem fun {c c'} hc _ hle => ?_
  rintro rfl
  have := (h.placed hc).exit
  omega

theorem outside (h : d.Row f e cells) (hc : c ∈ cells) (ha : a ∈ cells) (hne : c ≠ a)
    (hx : x = c.made.preheader ∨ f.InLoop e c.made.header x) : ¬ f.InLoop e a.made.header x := by
  intro hin
  rcases hx with rfl | hx
  · obtain ⟨-, hle, hle'⟩ := ((h.span ha).inLoop_iff h.staged).1 hin
    obtain ⟨hheader, -, hlatch, hexit⟩ := h.placed ha
    have hexit' := (h.placed hc).exit
    have hapart := (h.apart hc ha).resolve_left hne
    omega
  · exact hne (h.eq_of_inLoop hc ha hx hin)

theorem last_outside (h : d.Row f e cells) (ha : a ∈ cells) :
    ¬ f.InLoop e a.made.header (Cell.last e cells) := by
  intro hin
  obtain ⟨-, -, hle⟩ := ((h.span ha).inLoop_iff h.staged).1 hin
  obtain ⟨hheader, -, hlatch, hexit⟩ := h.placed ha
  have := (h.places.1 a ha).2
  omega

theorem ne_last (h : d.Row f e cells) (hc : c ∈ cells)
    (hx : x = c.made.preheader ∨ f.InLoop e c.made.header x) : x ≠ Cell.last e cells := by
  rintro rfl
  rcases hx with hx | hx
  · obtain ⟨-, -, -, hexit⟩ := h.placed hc
    have := (h.places.1 c hc).2
    rw [hx] at this
    omega
  · exact h.last_outside hc hx

section Fused

variable (h : d.Row f e (s ++ a :: b :: t)) (hp : p.Fits f e) (hj : p.Joins a b)

include h hp hj

omit h in
theorem retired_eq : p.retired = [b.made.preheader, b.made.header, b.made.latch] := by
  rw [hp.retired, hj.second.preheader, hj.second.header, hj.second.latch]

theorem layout_fused : (p.fused f).layout = Cell.line e (s ++ a.merge b :: t) := by
  have hn := h.wellFormed.nodup
  have hab : b.made.preheader = a.made.exit := (Cell.linked_append.1 h.linked).2.2.1
  have hlayout : f.layout = (Cell.line e s ++ a.made.header :: a.bodies) ++ a.made.latch ::
      b.made.preheader :: b.made.header ::
        (b.bodies ++ b.made.latch :: b.made.exit :: t.flatMap Cell.blocks) := by
    rw [h.layout, hab]
    simp [Cell.line, Cell.blocks]
  have hsettled := settled_eq (hlayout ▸ hn)
  rw [FusionPlan.fused_eq, Func.moveBlocksBefore, FusionPlan.layout_retired h.wellFormed hp,
    retired_eq hp hj, hj.secondBody, hj.first.latch, hlayout]
  refine hsettled.trans ?_
  simp [Cell.line, Cell.blocks_merge]

omit hp hj in
theorem mem_merged (hc : c ∈ s ++ a.merge b :: t) :
    c = a.merge b ∨ c ∈ s ++ a :: b :: t ∧ c ≠ a ∧ c ≠ b := by
  have hn := h.nodup
  simp only [List.nodup_append, List.nodup_cons, List.mem_cons, not_or] at hn
  obtain ⟨-, ⟨⟨-, hat⟩, hbt, -⟩, hs⟩ := hn
  rcases List.mem_append.1 hc with hc | hc
  · exact .inr ⟨List.mem_append_left _ hc, hs c hc a (.inl rfl), hs c hc b (.inr (.inl rfl))⟩
  · exact (List.mem_cons.1 hc).imp_right fun hct =>
      ⟨by simp [hct], fun he => hat (he ▸ hct), fun he => hbt (he ▸ hct)⟩

theorem jump_fused (hx : x ∈ f.layout) (hne : x ≠ b.made.header)
    (hop : f.exitOp? x = some (.br y)) : (p.fused f).exitOp? x = some (.br (p.retarget x y)) := by
  rw [FusionPlan.exitOp?_fused h.wellFormed hp hx (hj.second.header ▸ hne), hop]
  rfl

theorem jump_body (hx : x ∈ a.bodies) (hop : f.exitOp? x = some (.br y)) :
    (p.fused f).exitOp? x = some (.br (p.retarget x y)) := by
  have hin := h.body_in (by simp) hx
  refine h.jump_fused hp hj (h.live_of_inLoop (by simp) hin) (fun he => ?_) hop
  refine hp.apart x (hj.first.header ▸ hin) ?_
  rw [he, ← hj.second.header]
  exact hp.second.header_in

theorem jump_body' (hx : x ∈ b.bodies) (hop : f.exitOp? x = some (.br y)) :
    (p.fused f).exitOp? x = some (.br (p.retarget x y)) :=
  h.jump_fused hp hj (h.live_of_inLoop (by simp) (h.body_in (by simp) hx))
    (h.ne_of_mem_bodies (by simp) hx).1 hop

/-- The first body goes on to the second instead of the latch. -/
theorem jump_seam : (p.fused f).exitOp? a.made.tail = some (.br b.made.body) := by
  have ha : a ∈ s ++ a :: b :: t := by simp
  have hchain := FusionPlan.retarget_firstTail hp
  rw [hj.first.bodyTail, hj.first.latch, hj.second.bodyHead] at hchain
  rw [← hchain]
  exact h.jump_body hp hj (List.mem_of_getElem? (h.threaded a ha).tail) (h.code a ha).repeats

/-- The second body goes on to the latch of the first loop. -/
theorem jump_back : (p.fused f).exitOp? b.made.tail = some (.br a.made.latch) := by
  have hb : b ∈ s ++ a :: b :: t := by simp
  have hback := FusionPlan.retarget_secondTail hp
  rw [hj.second.bodyTail, hj.second.latch, hj.first.latch] at hback
  rw [← hback]
  exact h.jump_body' hp hj (List.mem_of_getElem? (h.threaded b hb).tail) (h.code b hb).repeats

theorem threaded_merged : (a.merge b).Threaded (p.fused f) := by
  have ha : a ∈ s ++ a :: b :: t := by simp
  have hb : b ∈ s ++ a :: b :: t := by simp
  have hta := h.threaded a ha
  have htb := h.threaded b hb
  have hlen := a.length_bodies
  have hpos := htb.nonempty
  have hparts : (a.merge b).parts.length - 1 = a.bodies.length + (b.parts.length - 1) := by
    rw [hlen, Cell.merge, List.length_append]
    omega
  refine ⟨?_, ?_, fun j x y hx hy => ?_⟩
  · rw [Cell.bodies_merge, List.getElem?_append_left (by have := hta.nonempty; omega)]
    exact hta.head
  · rw [Cell.bodies_merge, hparts, List.getElem?_append_right (Nat.le_add_right ..),
      Nat.add_sub_cancel_left]
    exact htb.tail
  -- both ends of the jump are in the first body, or it leads to the second one, or both are there
  · rw [Cell.bodies_merge] at hx hy
    rcases lt_trichotomy (j + 1) a.bodies.length with hlt | heq | hgt
    · rw [List.getElem?_append_left (by omega)] at hx
      rw [List.getElem?_append_left hlt] at hy
      have hya := List.mem_of_getElem? hy
      rw [h.jump_body hp hj (List.mem_of_getElem? hx) (hta.jumps j x y hx hy),
        FusionPlan.retarget_first hp (hj.first.header ▸ h.body_in ha hya)
          (hj.first.latch ▸ (h.ne_of_mem_bodies ha hya).2)]
    · rw [List.getElem?_append_left (by omega)] at hx
      rw [heq, List.getElem?_append_right le_rfl, Nat.sub_self, htb.head] at hy
      obtain rfl : j = a.parts.length - 1 := by omega
      obtain rfl := Option.some.inj (hx.symm.trans hta.tail)
      obtain rfl := Option.some.inj hy
      exact h.jump_seam hp hj
    · rw [List.getElem?_append_right (by omega)] at hx hy
      rw [Nat.sub_add_comm (by omega)] at hy
      have hyb := List.mem_of_getElem? hy
      rw [h.jump_body' hp hj (List.mem_of_getElem? hx) (htb.jumps _ x y hx hy),
        FusionPlan.retarget_second hp (hj.second.header ▸ h.body_in hb hyb)
          (hj.second.latch ▸ (h.ne_of_mem_bodies hb hyb).2)]

variable (hd : d.Independent)

include hd

omit hp in
/-- What is outside the second loop does not read its counter, unless it returns it. -/
theorem unread (hx : x ∈ f.layout) (hlast : x ≠ Cell.last e (s ++ a :: b :: t))
    (hout : ¬ f.InLoop e p.second.header x) (hi : i ∈ f.body x)
    {op : Operation} (hop : f.op? i = some op) : ∀ v ∈ op.operands, v ≠ .inst p.second.iv := by
  rintro v hv rfl
  have hb : b ∈ s ++ a :: b :: t := by simp
  obtain ⟨iv, cond, br, hiv, hhead, -⟩ := h.header hb
  obtain rfl : iv = p.second.iv := Value.inst.inj (hiv.symm.trans hj.second.iv)
  rw [hj.second.header] at hout
  have hmem : p.second.iv ∈ f.body b.made.header := by
    rw [hhead]
    exact List.mem_cons_self ..
  refine hout (h.used_in hd hb (h.header_in hb) hmem
    (absurd · hlast) hx hi ?_)
  rw [Func.operands, hop]
  exact hv

theorem kept_outside (hx : x ∈ f.layout) (hlast : x ≠ Cell.last e (s ++ a :: b :: t))
    (ha : ¬ f.InLoop e a.made.header x)
    (hb : ¬ f.InLoop e b.made.header x) : f.Kept (p.fused f) x where
  body := FusionPlan.body_fused h.wellFormed hp x
  op? i hi := by
    rw [← hj.first.header] at ha
    rw [← hj.second.header] at hb
    have hne : x ≠ p.second.header := fun he => hb (he ▸ hp.second.header_in)
    have hbody : x ≠ p.second.bodyHead := fun he => hb (he ▸ hp.second.bodyHead_in)
    have hlatch : x ≠ p.first.latch := fun he => ha (he ▸ hp.first.latch_in)
    rw [FusionPlan.op?_fused h.wellFormed hp hx hne hi]
    cases hop : f.op? i with
    | none => rfl
    | some op =>
      rw [Option.map_some, FusionPlan.fusedOp_of_relabel (h.unread hj hd hx hlast hb hi hop)
        (FusionPlan.relabel_eq_id hbody hlatch),
        FusionPlan.retarget_outside hp (h.staged.leads hx) ha hb, Operation.mapTargets_id]

theorem op?_first {op : Operation} (hx : f.InLoop e a.made.header x) (hi : i ∈ f.body x)
    (hop : f.op? i = some op) (hphi : x = a.made.header ∨ ¬ op.isPhi) :
    (p.fused f).op? i = some (op.mapTargets (p.retarget x)) := by
  have ha : a ∈ s ++ a :: b :: t := by simp
  have hlive := h.live_of_inLoop ha hx
  rw [← hj.first.header] at hx hphi
  have hout := hp.apart x hx
  have hne : x ≠ p.second.header := fun he => hout (he ▸ hp.second.header_in)
  have hunread := h.unread hj hd hlive (h.ne_last ha (.inr (hj.first.header ▸ hx))) hout hi hop
  rw [FusionPlan.op?_fused h.wellFormed hp hlive hne hi, hop, Option.map_some]
  rcases hphi with rfl | hphi
  · have hbody : p.first.header ≠ p.second.bodyHead := fun he => hout (he ▸ hp.second.bodyHead_in)
    rw [FusionPlan.fusedOp_of_relabel hunread (FusionPlan.relabel_eq_id hbody ?_)]
    rw [hj.first.header, hj.first.latch]
    exact h.header_ne_latch ha
  · rw [FusionPlan.fusedOp_of_not_phi hunread hphi]

theorem code_merged : (d.call (a.merge b).made).In (p.fused f) := by
  have ha : a ∈ s ++ a :: b :: t := by simp
  have hb : b ∈ s ++ a :: b :: t := by simp
  have hne : a ≠ b :=
    List.ne_of_not_mem_cons (List.nodup_cons.1 (List.nodup_append.1 h.nodup).2.1).1
  have hin := h.code a ha
  have hhead_in := h.header_in ha
  have hfused := FusionPlan.body_fused h.wellFormed hp
  exact {
    moves := hin.moves
    enter := by
      have hout : ¬ f.InLoop e a.made.header a.made.preheader := fun hpre => by
        have hheader := (h.placed ha).header
        have := ((h.span ha).inLoop_iff h.staged).1 hpre
        omega
      have hlive := h.mem_layout.2 (.inr ⟨a, ha, .inl rfl⟩)
      exact (h.kept_outside hp hj hd hlive (h.ne_last ha (.inl rfl)) hout
        (h.outside ha hb hne (.inl rfl))).exitOp?.trans hin.enter
    header := by
      obtain ⟨iv, cond, br, hiv, hhead, hphi, hcmp, hbr⟩ := h.header ha
      have hop := fun {i : InstId} {op} (hi : i ∈ [iv, cond, br]) (hop : f.op? i = some op) =>
        h.op?_first hp hj hd hhead_in (hhead ▸ hi) hop (.inl rfl)
      refine ⟨iv, cond, br, hiv, (hfused _).trans hhead, hop (by simp) hphi, hop (by simp) hcmp, ?_⟩
      rw [hop (by simp) hbr]
      have hbody := List.mem_of_getElem? (h.threaded a ha).head
      have hstay : p.retarget a.made.header a.made.body = a.made.body :=
        FusionPlan.retarget_first hp (hj.first.header ▸ h.body_in ha hbody)
          (hj.first.latch ▸ (h.ne_of_mem_bodies ha hbody).2)
      have hleave : p.retarget a.made.header a.made.exit = b.made.exit := by
        have hab : a.made.exit = b.made.preheader := (Cell.linked_append.1 h.linked).2.2.1.symm
        rw [hab, ← hj.second.preheader, ← hj.second.exit]
        exact FusionPlan.retarget_entry (.inl hj.first.header.symm)
      rw [Operation.mapTargets, hstay, hleave]
      rfl
    repeats := h.jump_back hp hj
    latch := by
      obtain ⟨next, br, hnext, hbody, hadd, hbr⟩ := h.latch ha
      have hop := fun {i : InstId} {op} (hi : i ∈ [next, br]) (hop : f.op? i = some op) hphi =>
        h.op?_first hp hj hd (h.latch_in ha) (hbody ▸ hi) hop (.inr hphi)
      refine ⟨next, br, hnext, (hfused _).trans hbody, hop (by simp) hadd Bool.false_ne_true, ?_⟩
      rw [hop (by simp) hbr Bool.false_ne_true]
      have hback : p.retarget a.made.latch a.made.header = a.made.header :=
        FusionPlan.retarget_first hp (hj.first.header ▸ hhead_in)
          (hj.first.latch ▸ h.header_ne_latch ha)
      rw [Operation.mapTargets, hback]
      rfl }

theorem op?_second {m : CountedLoop} (hm : m ∈ b.parts) (hi : i ∈ f.body m.body)
    (ht : ¬ d.func.isTerminator i) :
    (p.fused f).op? i = (d.func.op? i).map (.mapOperands (replace m.iv a.made.iv)) := by
  have hb : b ∈ s ++ a :: b :: t := by simp
  have hmem : m.body ∈ b.bodies := List.mem_map_of_mem hm
  have hin := h.body_in hb hmem
  have hne : m.body ≠ b.made.header := (h.ne_of_mem_bodies hb hmem).1
  have hlive := h.live_of_inLoop hb hin
  obtain ⟨op, hop, hnow, hplain, hown⟩ := h.op?_body hd hb hm hi ht
  rw [FusionPlan.op?_fused h.wellFormed hp hlive (hj.second.header ▸ hne) hi, hnow, hop,
    Option.map_some, FusionPlan.fusedOp_of_plain (hplain.mapOperands _),
    Operation.mapOperands_mapOperands, Option.map_some]
  refine congrArg some (Operation.mapOperands_congr fun v hv => ?_)
  by_cases hiv : v = m.iv
  · have hwas : replace m.iv b.made.iv v = .inst p.second.iv := (if_pos hiv).trans hj.second.iv
    have hnow : replace m.iv a.made.iv v = .inst p.first.iv := (if_pos hiv).trans hj.first.iv
    rw [Function.comp_apply, hwas, hnow, FusionPlan.renamed_second]
  · have hwas : replace m.iv b.made.iv v = v := if_neg hiv
    have hnow : replace m.iv a.made.iv v = v := if_neg hiv
    rw [Function.comp_apply, hwas, hnow]
    refine FusionPlan.renamed_of_ne ?_
    rcases hown v hv with hv | hv | ⟨j, hjb, rfl⟩
    · exact hv.ne_inst
    · exact absurd hv hiv
    · rintro hiv'
      obtain ⟨iv, cond, br, hiv, hhead, -⟩ := h.header hb
      obtain rfl : iv = j := Value.inst.inj (hiv.symm.trans (hj.second.iv.trans hiv'.symm))
      refine hne (h.wellFormed.block_unique (h.live_of_inLoop hb (h.header_in hb))
        hlive ?_ hjb)
      rw [hhead]
      exact List.mem_cons_self ..

theorem kept_merged {m : CountedLoop} (hm : m ∈ (a.merge b).parts) :
    (p.fused f).body m.body = d.func.body m.body ∧
    ∀ i ∈ (p.fused f).body m.body, (p.fused f).isTerminator i = d.func.isTerminator i ∧
      (¬ d.func.isTerminator i → (p.fused f).op? i =
        (d.func.op? i).map (.mapOperands (replace m.iv (a.merge b).made.iv))) := by
  have ha : a ∈ s ++ a :: b :: t := by simp
  have hb : b ∈ s ++ a :: b :: t := by simp
  have hw := h.wellFormed
  rw [FusionPlan.body_fused hw hp]
  simp only [FusionPlan.isTerminator_fused hw hp]
  rcases List.mem_append.1 hm with hm | hm
  · obtain ⟨hbody, hops⟩ := h.kept a ha m hm
    refine ⟨hbody, fun i hi => ⟨(hops i hi).1, fun ht => ?_⟩⟩
    obtain ⟨op, hop, hnow, hplain, -⟩ := h.op?_body hd ha hm hi ht
    have hplain := hplain.mapOperands (replace m.iv a.made.iv)
    have hin := h.body_in ha (List.mem_map_of_mem hm)
    rw [h.op?_first hp hj hd hin hi hnow (.inr hplain.1), hop,
      Operation.mapTargets_of_not_terminator _ (by simpa using hplain.2)]
    rfl
  · obtain ⟨hbody, hops⟩ := h.kept b hb m hm
    exact ⟨hbody, fun i hi => ⟨(hops i hi).1, h.op?_second hp hj hd hm hi⟩⟩

theorem kept_elsewhere (hc : c ∈ s ++ a :: b :: t) (hne : c ≠ a ∧ c ≠ b)
    (hx : x = c.made.preheader ∨ f.InLoop e c.made.header x) : f.Kept (p.fused f) x :=
  h.kept_outside hp hj hd (h.mem_layout.2 (.inr ⟨c, hc, hx.imp_right (h.inLoop_iff hc).1⟩))
    (h.ne_last hc hx) (h.outside hc (by simp) hne.1 hx) (h.outside hc (by simp) hne.2 hx)

omit hd in
/-- What is returned in the end is returned by the fused function, with the first counter instead of
the second. -/
theorem returns_fused : ∃ i v, (p.fused f).body (Cell.last e (s ++ a.merge b :: t)) = [i] ∧
    (p.fused f).op? i = some (.ret v) ∧
      ∀ x ∈ v, x.Outer ∨ ∃ c ∈ s ++ a.merge b :: t, x = c.made.iv := by
  have hb : b ∈ s ++ a :: b :: t := by simp
  obtain ⟨i, v, hbody, hop, hout⟩ := h.returns
  have hne : Cell.last e (s ++ a :: b :: t) ≠ p.second.header := fun he =>
    h.ne_last hb (.inr (he ▸ hj.second.header ▸ hp.second.header_in)) rfl
  have hnow := FusionPlan.op?_fused h.wellFormed hp (h.mem_layout.2 (.inl rfl)) hne
    (by rw [hbody]; exact List.mem_singleton_self i)
  rw [Cell.last_merge]
  refine ⟨i, v.map p.renamed, (FusionPlan.body_fused h.wellFormed hp _).trans hbody,
    by rw [hnow, hop]; rfl, fun x hx => ?_⟩
  obtain ⟨y, hy, rfl⟩ := Option.mem_map.1 hx
  rcases hout y hy with hy | ⟨c, hc, rfl⟩
  · rw [FusionPlan.renamed_of_ne hy.ne_inst]
    exact .inl hy
  · right
    by_cases hiv : c.made.iv = .inst p.second.iv
    · exact ⟨a.merge b, by simp, by rw [hiv, FusionPlan.renamed_second]; exact hj.first.iv.symm⟩
    · rw [FusionPlan.renamed_of_ne hiv]
      rcases List.mem_append.1 hc with hc | hc
      · exact ⟨c, List.mem_append_left _ hc, rfl⟩
      rcases List.mem_cons.1 hc with rfl | hc
      · exact ⟨c.merge b, by simp, rfl⟩
      rcases List.mem_cons.1 hc with rfl | hc
      · exact absurd hj.second.iv hiv
      · exact ⟨c, by simp [hc], rfl⟩

/-- Fusing two loops of a row leaves a row. -/
theorem fused (hclean : p.Clean f) : d.Row (p.fused f) e (s ++ a.merge b :: t) := by
  have ha : a ∈ s ++ a :: b :: t := by simp
  have hw := h.wellFormed
  have hkept := fun {c x} (hc : c ∈ s ++ a :: b :: t) (hne : c ≠ a ∧ c ≠ b)
      (hx : x = c.made.preheader ∨ x = c.made.header ∨ x ∈ c.bodies ∨ x = c.made.latch) =>
    h.kept_elsewhere hp hj hd hc hne (hx.imp_right (h.inLoop_iff hc).2)
  refine ⟨FusionPlan.wellFormed_fused hw hp hclean, (FusionPlan.params_fused hw hp).trans h.params,
    ?_, h.layout_fused hp hj, Cell.linked_merge h.linked, fun c hc => ?_, fun c hc => ?_,
    fun c hc => ?_, h.returns_fused hp hj, fun c hc m hm => ?_⟩
  · rw [← h.parts]
    simp [Cell.merge]
  · rcases h.mem_merged hc with rfl | ⟨hc, hne⟩
    · exact h.code_merged hp hj hd
    · have htail := List.mem_of_getElem? (h.threaded c hc).tail
      refine (h.code c hc).kept fun x hx => hkept hc hne ?_
      change x ∈ [c.made.preheader, c.made.header, c.made.tail, c.made.latch] at hx
      simp only [List.mem_cons, List.not_mem_nil, or_false] at hx
      refine hx.imp_right (Or.imp_right (Or.imp_left fun he => ?_))
      rwa [he]
  · rcases h.mem_merged hc with rfl | ⟨hc, hne⟩
    · exact h.threaded_merged hp hj
    · obtain ⟨hhead, htail, hjumps⟩ := h.threaded c hc
      refine ⟨hhead, htail, fun j x y hx hy => ?_⟩
      have hx' := hkept hc hne (.inr (.inr (.inl (List.mem_of_getElem? hx))))
      rw [hx'.exitOp?, hjumps j x y hx hy]
  · rw [FusionPlan.body_fused hw hp]
    rcases h.mem_merged hc with rfl | ⟨hc, -⟩
    · exact h.passes a ha
    · exact h.passes c hc
  · rcases h.mem_merged hc with rfl | ⟨hc, hne⟩
    · exact h.kept_merged hp hj hd hm
    · obtain ⟨hbody, hops⟩ := h.kept c hc m hm
      have hk := hkept hc hne (.inr (.inr (.inl (List.mem_map_of_mem hm))))
      rw [hk.body]
      refine ⟨hbody, fun i hi => ?_⟩
      rw [FusionPlan.isTerminator_fused hw hp, hk.op? i hi]
      exact hops i hi

end Fused

end Draft.Row

end LoopFusion
