import LoopFusion.Proofs.Flow.Forest
import LoopFusion.Proofs.Verified

/-!
The ways into a loop and out of it: through a preheader that leads nowhere else, past it from a
guard, and from the header to a single exit.
-/

namespace LoopFusion

open Relation LoopFusion.Flow

theorem Func.edge_iff {f : Func} {b y : BlockId} {op : Operation} (hb : b ∈ f.layout)
    (h : f.exitOp? b = some op) : f.Edge b y ↔ y ∈ op.targets := by
  simp [Func.Edge, hb, Func.successors, h]

theorem Func.Returns.no_edge {f : Func} {r y : BlockId} (h : f.Returns r) : ¬ f.Edge r y := by
  intro hy
  obtain ⟨op, hop, hmem⟩ := Func.mem_successors.1 hy.2
  have hret := h.2
  rw [hop, Option.any_some] at hret
  cases op with
  | ret => exact absurd hmem List.not_mem_nil
  | _ => cases hret

/-- A loop that is entered from `pre` only, and left to `exit` only, from its header `h`. -/
structure Func.Gated (f : Func) (e h pre bodyHead exit : BlockId) : Prop where
  enter : ∀ q, f.Edge q h ∧ ¬ f.InLoop e h q ↔ q = pre
  leads : ∀ x, f.Edge pre x ↔ x = h
  leave : ∀ x y, f.InLoop e h x → f.Edge x y → ¬ f.InLoop e h y → x = h ∧ y = exit
  branch : ∀ y, f.Edge h y ↔ y = bodyHead ∨ y = exit
  bodyHead_in : f.InLoop e h bodyHead
  exit_out : ¬ f.InLoop e h exit

namespace Func.Gated

variable {f : Func} {e h pre m exit x y : BlockId} (hg : f.Gated e h pre m exit)

include hg

theorem header_in : f.InLoop e h h := hg.bodyHead_in.header

theorem reach : f.Leads e h := hg.header_in.reach

theorem preheader_edge : f.Edge pre h := (hg.leads _).2 rfl

theorem preheader_out : ¬ f.InLoop e h pre := ((hg.enter _).2 rfl).2

theorem exit_edge : f.Edge h exit := (hg.branch _).2 (.inr rfl)

theorem bodyHead_edge : f.Edge h m := (hg.branch _).2 (.inl rfl)

theorem exit_ne : exit ≠ h := fun he => hg.exit_out (he ▸ hg.header_in)

theorem preheader_ne : pre ≠ h := fun he => hg.preheader_out (he ▸ hg.header_in)

theorem preheader_reach (hne : e ≠ h) : f.Leads e pre := by
  rcases (Walk.ofReach hg.reach).firstVisit h with hw | ⟨heq | ⟨y, hw, hy⟩, -⟩
  · exact absurd rfl hw.last.2
  · exact absurd heq hne
  · obtain rfl := (hg.enter y).1 ⟨hy, fun hin => hin.dom.2 (hw.mono fun _ hz => hz.2)⟩
    exact hw.reach

theorem dom_preheader (hne : e ≠ h) : Dom f.Edge e pre h :=
  hg.header_in.dom_entering hne fun q hq hout => (hg.enter q).1 ⟨hq, hout⟩

theorem not_dom_preheader : ¬ Dom f.Edge e h pre := fun hd =>
  hg.preheader_out (Back.inLoop ⟨hg.preheader_edge, hd⟩)

theorem from_bodyHead (hx : f.InLoop e h x) (hne : x ≠ h) :
    Walk f.Edge (fun z => f.InLoop e h z ∧ z ≠ h) m x := by
  obtain ⟨y, hy, hw⟩ := hx.from_header hne
  rcases (hg.branch y).1 hy with rfl | rfl
  · exact hw
  · exact absurd hw.first.1 hg.exit_out

theorem stay (hx : f.InLoop e h x) (hw : Walk f.Edge (· ≠ h) x y) : f.InLoop e h y := by
  induction hw with
  | refl => exact hx
  | @tail y z hw hyz hz ih =>
    by_contra hn
    exact hw.last (hg.leave y z ih hyz hn).1

theorem walk_exit (hx : f.InLoop e h x) (hy : ¬ f.InLoop e h y) (hl : f.Leads x y) :
    Walk f.Edge (· ≠ h) exit y := by
  rcases (Walk.ofReach hl).lastVisit h with hw | ⟨-, heq | ⟨z, hz, hw⟩⟩
  · exact absurd (hg.stay hx (hw.mono fun _ hz => hz.2)) hy
  · exact absurd (heq ▸ hg.header_in) hy
  · have hw : Walk f.Edge (· ≠ h) z y := hw.mono fun _ hz => hz.2
    rcases (hg.branch z).1 hz with rfl | rfl
    · exact absurd (hg.stay hg.bodyHead_in hw) hy
    · exact hw

end Func.Gated

/-! Guards. -/

theorem Region.forward?_spec {f : Func} {x o : BlockId} (h : forward? f x = some o) :
    f.exitOp? x = some (.br o) := by
  rw [forward?] at h
  split at h
  case h_2 => cases h
  case h_1 t hbody =>
    obtain rfl := Option.some.inj h
    obtain ⟨i, hi, hop⟩ := List.map_eq_singleton_iff.1 hbody
    exact Func.exitOp?_of_getLast? (by rw [hi, List.getLast?_singleton]) hop rfl

theorem Region.guard?_spec {f : Func} {pre exit gd : BlockId} {r : Region} (hf : f.InArena)
    (hexit : only? (r.exits (Cfg.ofFunc f)) = some exit)
    (h : r.guard? f (Cfg.ofFunc f) pre = some gd) :
    f.Edge gd pre ∧ ¬ r.contains gd ∧ ∃ o, (∀ y, f.Edge gd y ↔ y = pre ∨ y = o) ∧
      (o = exit ∨ f.exitOp? exit = some (.br o)) := by
  rw [only?_eq_some] at hexit
  rw [guard?, hexit] at h
  split at h
  case h_2 => cases h
  case h_1 g x hpre hx =>
    obtain rfl := (List.cons.inj hx).1
    split at h
    · cases h
    rename_i hout
    split at h
    case h_2 => cases h
    case h_1 c t e' hop =>
      have hedge : f.Edge g pre := (Cfg.mem_preds_iff hf).1 (hpre ▸ List.mem_singleton_self g)
      have hops : ∀ y, f.Edge g y ↔ y = t ∨ y = e' := by
        intro y
        rw [Func.edge_iff hedge.1 hop]
        simp [Operation.targets]
      have key : ∀ o, (∀ y, f.Edge g y ↔ y = pre ∨ y = o) →
          (if some o = some exit || (some o).isSome && some o = forward? f exit then some g
            else none) = some gd →
          f.Edge gd pre ∧ ¬ r.contains gd ∧ ∃ o, (∀ y, f.Edge gd y ↔ y = pre ∨ y = o) ∧
            (o = exit ∨ f.exitOp? exit = some (.br o)) := by
        intro o ho hsome
        split at hsome
        case isFalse => cases hsome
        case isTrue hother =>
          obtain rfl := Option.some.inj hsome
          refine ⟨hedge, hout, o, ho, ?_⟩
          simp only [Option.isSome_some, Bool.true_and, Bool.or_eq_true, decide_eq_true_eq,
            Option.some.injEq] at hother
          exact hother.imp_right fun h => forward?_spec h.symm
      by_cases ht : t = pre
      · simp only [ht, if_true] at h
        exact key e' (by simpa [ht] using hops) h
      · by_cases he : e' = pre
        · simp only [ht, he, if_true, if_false] at h
          exact key t (by simpa [he, or_comm] using hops) h
        · simp [ht, he] at h

theorem Region.guard?_alone {f : Func} {pre g : BlockId} {r : Region} (hf : f.InArena)
    (h : r.guard? f (Cfg.ofFunc f) pre = some g) (q : BlockId) : f.Edge q pre ↔ q = g := by
  have hpreds : (Cfg.ofFunc f).preds pre = [g] := by
    rw [guard?] at h
    split at h
    case h_2 => cases h
    case h_1 hpre hx =>
      split at h
      · cases h
      split at h
      case h_2 => cases h
      case h_1 =>
        obtain ⟨-, h⟩ := Option.ite_none_right_eq_some.1 h
        rw [hpre, Option.some.inj h]
  rw [← Cfg.mem_preds_iff hf, hpreds, List.mem_singleton]

/-- A block that leads to the preheader of a loop, or past the loop. -/
structure Func.Guards (f : Func) (e : BlockId) (l : Loop) (pre g : BlockId) : Prop where
  alone : ∀ q, f.Edge q pre ↔ q = g
  outside : ¬ f.InLoop e l.header g
  passes : ∃ exit o, only? l.exits = some exit ∧ (∀ y, f.Edge g y ↔ y = pre ∨ y = o) ∧
    (o = exit ∨ f.exitOp? exit = some (.br o))

namespace LoopForest

variable {f : Func} {e pre exit g m x y : BlockId} {l : Loop} (hf : f.InArena)
  (he : f.entry? = some e)

include hf he

theorem preheader_spec (hl : l ∈ f.forest.loops) (hpre : l.preheader? = some pre) :
    ¬ f.InLoop e l.header pre ∧ ∀ x, f.Edge pre x ↔ x = l.header := by
  rw [preheader?_eq hl, Region.preheader?_eq_some (region_is hf he hl) hf] at hpre
  refine ⟨((hpre.1 pre).2 rfl).2, fun x => ?_⟩
  rw [← Cfg.mem_succs, hpre.2, List.mem_singleton]
  rfl

theorem mem_exits_iff (hl : l ∈ f.forest.loops) (hexit : only? l.exits = some exit) :
    ¬ f.InLoop e l.header y ∧ (∃ x, f.InLoop e l.header x ∧ f.Edge x y) ↔ y = exit := by
  rw [exits_eq hl, only?_eq_some_iff_mem (Region.nodup_exits _ _)] at hexit
  rw [← hexit]
  exact (Region.mem_exits (region_is hf he hl)).symm

theorem leave_spec (hl : l ∈ f.forest.loops) (hexit : only? l.exits = some exit)
    (hx : f.InLoop e l.header x) (hxy : f.Edge x y) (hy : ¬ f.InLoop e l.header y) : y = exit :=
  (mem_exits_iff hf he hl hexit).1 ⟨hy, x, hx, hxy⟩

theorem gated (hl : l ∈ f.forest.loops) (hpre : l.preheader? = some pre)
    (hexit : only? l.exits = some exit) (hexiting : l.exiting = [l.header])
    (hbranch : ∀ y, f.Edge l.header y ↔ y = m ∨ y = exit) (hm : l.contains m) :
    f.Gated e l.header pre m exit where
  enter := by
    rw [preheader?_eq hl, Region.preheader?_eq_some (region_is hf he hl) hf] at hpre
    exact hpre.1
  leads := (preheader_spec hf he hl hpre).2
  leave x y hx hxy hy := by
    refine ⟨?_, leave_spec hf he hl hexit hx hxy hy⟩
    have hmem := (Region.mem_exiting (region_is hf he hl)).2 ⟨hx, y, hxy, hy⟩
    rwa [← exiting_eq hl, hexiting, List.mem_singleton] at hmem
  branch := hbranch
  bodyHead_in := (contains_iff hf he hl).1 hm
  exit_out := ((mem_exits_iff hf he hl hexit).2 rfl).1

theorem guards (hl : l ∈ f.forest.loops) (hexit : only? l.exits = some exit)
    (hpre : l.preheader? = some pre) (hg : l.guard? = some g) : f.Guards e l pre g := by
  rw [guard?_eq hl, hpre, Option.bind_some] at hg
  have hexit' := hexit
  rw [exits_eq hl] at hexit'
  obtain ⟨-, hout, o, ho, hox⟩ := Region.guard?_spec hf hexit' hg
  refine ⟨Region.guard?_alone hf hg, ?_, exit, o, hexit, ho, hox⟩
  rwa [Region.contains_iff (region_is hf he hl)] at hout

end LoopForest

namespace Func.Guards

variable {f : Func} {e pre g h : BlockId} {l : Loop} (hg : f.Guards e l pre g)
  (hw : f.WellFormed e) (hl : l ∈ f.forest.loops) (hpre : l.preheader? = some pre)

include hg

theorem edge : f.Edge g pre := (hg.alone g).2 rfl

include hw

theorem ne_entry : pre ≠ e := fun he => hw.unentered g (he ▸ hg.edge)

theorem walk (hr : f.Leads e pre) : Walk f.Edge (· ≠ pre) e g := by
  rcases (Walk.ofReach hr).firstVisit pre with h | ⟨heq | ⟨y, h, hy⟩, -⟩
  · exact absurd rfl h.last.2
  · exact absurd heq.symm (ne_entry hg hw)
  · obtain rfl := (hg.alone y).1 hy
    exact h.mono fun _ hz => hz.2

theorem dom (hr : f.Leads e pre) : Dom f.Edge e g pre := by
  refine Dom.of_preds hr (ne_entry hg hw) fun q hq hqp => ?_
  obtain rfl := (hg.alone q).1 hqp
  exact .of_reach hq

include hl hpre

/-- The loop can be passed by, so its preheader is on no way to other places. -/
theorem not_dom_preheader (hh : ¬ f.InLoop e l.header h) (hne : pre ≠ h)
    (hbr : ∀ t, f.exitOp? h ≠ some (.br t)) : ¬ Dom f.Edge e pre h := by
  intro hd
  obtain ⟨exit, o, hexit, hgo, ho⟩ := hg.passes
  have hgo := (hgo o).2 (.inr rfl)
  have hhead := LoopForest.headed hw.inArena hw.entry hl
  have hloop : Walk f.Edge (· ≠ pre) l.header h := by
    rcases (Walk.ofReach hd.reach_between).lastVisit pre with hwalk | ⟨-, heq | ⟨z, hz, hwalk⟩⟩
    · exact absurd rfl hwalk.first.2
    · exact absurd heq hne
    · obtain rfl := ((LoopForest.preheader_spec hw.inArena hw.entry hl hpre).2 z).1 hz
      exact hwalk.mono fun _ hz => hz.2
  have hexits : Walk f.Edge (· ≠ pre) exit h := hloop.leave hhead hh fun x y hx hxy hy =>
    LoopForest.leave_spec hw.inArena hw.entry hl hexit hx hxy hy
  have hother : Walk f.Edge (· ≠ pre) o h := by
    rcases ho with rfl | hbro
    · exact hexits
    · rcases hexits.cases_head with rfl | ⟨y, hy, hwalk⟩
      · exact absurd hbro (hbr o)
      · obtain rfl := List.mem_singleton.1 ((Func.edge_iff hy.1 hbro).1 hy)
        exact hwalk
  have hfirst := walk hg hw hd.reach_left
  exact hd.2 (hfirst.trans (.head hfirst.last hgo hother))

end Func.Guards

end LoopFusion
