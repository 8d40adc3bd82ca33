import LoopFusion.Flow.LoopForest
import LoopFusion.Proofs.Flow.Graph
import LoopFusion.Proofs.Flow.NaturalLoop

/-!
The loops found in a function are its natural loops: one for each header, each with its blocks, its
back edges and what surrounds it.
-/

namespace LoopFusion

open Relation LoopFusion.Flow

section Lists

variable {α : Type} {l : List α} {a : α}

theorem nodup_eraseDups [BEq α] [LawfulBEq α] (l : List α) : l.eraseDups.Nodup := by
  induction hn : l.length using Nat.strong_induction_on generalizing l with
  | _ n ih =>
    cases l with
    | nil => simp
    | cons a l =>
      rw [List.eraseDups_cons, List.nodup_cons]
      have := List.length_filter_le (fun b => !b == a) l
      refine ⟨by simp, ih _ ?_ _ rfl⟩
      rw [← hn, List.length_cons]
      omega

theorem eraseDups_eq_self [BEq α] [LawfulBEq α] (h : l.Nodup) : l.eraseDups = l := by
  induction l with
  | nil => simp
  | cons a l ih =>
    obtain ⟨ha, hl⟩ := List.nodup_cons.1 h
    rw [List.eraseDups_cons, List.filter_eq_self.2 fun b hb => ?_, ih hl]
    simpa using fun he : b = a => ha (he ▸ hb)

theorem filter_contains_filter [BEq α] [LawfulBEq α] (l : List α) (q : α → Bool) :
    (l.filter fun x => (l.filter q).contains x) = l.filter q := by
  apply List.filter_congr
  intro x hx
  rw [Bool.eq_iff_iff, List.contains_iff_mem, List.mem_filter, and_iff_right hx]

theorem only?_eq_some : only? l = some a ↔ l = [a] := by
  cases l with
  | nil => simp [only?]
  | cons b l => cases l <;> simp [only?]

theorem only?_eq_some_iff_mem (hl : l.Nodup) : only? l = some a ↔ ∀ x, x ∈ l ↔ x = a := by
  rw [only?_eq_some]
  constructor
  · rintro rfl x
    exact List.mem_singleton
  · intro h
    have hp : l.Perm [a] :=
      (List.perm_ext_iff_of_nodup hl (List.nodup_singleton a)).2 fun x => by
        rw [h, List.mem_singleton]
    exact hp.eq_singleton

theorem minOn?_le {f : α → Nat} (h : l.minOn? f = some a) {x : α} (hx : x ∈ l) : f a ≤ f x := by
  have := List.apply_get_minOn?_le_of_mem (f := f) hx
  simpa [h] using this

end Lists

/-- The blocks of the natural loop with header `h`. -/
abbrev Func.InLoop (f : Func) (e h x : BlockId) : Prop := Flow.InLoop f.Edge e h x

abbrev Func.Back (f : Func) (e l h : BlockId) : Prop := Flow.Back f.Edge e l h

namespace Region

/-- What a region records of the natural loop with its header. -/
structure Is (r : Region) (f : Func) (e : BlockId) : Prop where
  latches : ∀ l, l ∈ r.latches ↔ f.Back e l r.header
  nodupLatches : r.latches.Nodup
  blocks : ∀ x, x ∈ r.blocks ↔ f.InLoop e r.header x
  nodup : r.blocks.Nodup
  headed : f.InLoop e r.header r.header

variable {f : Func} {e h l x : BlockId} (hf : f.InArena) (he : f.entry? = some e)

theorem mem_lineUp {layout : List BlockId} : x ∈ lineUp layout ↔ x ∈ layout := by
  simp [lineUp]

theorem lineUp_eq_self {layout : List BlockId} (h : layout.Nodup) : lineUp layout = layout := by
  rw [lineUp, eraseDups_eq_self (List.nodup_reverse.2 h), List.reverse_reverse]

/-- Where the search for the blocks of the loop of `h` goes on from `b`. -/
def behind (g : Cfg) (h b : BlockId) : List BlockId :=
  if b = h then [] else (g.preds b).filter g.reachable

theorem mem_behind {g : Cfg} : x ∈ behind g h l ↔ l ≠ h ∧ x ∈ g.preds l ∧ g.reachable x := by
  rw [behind]
  split
  case isTrue hl => simp [hl]
  case isFalse hl => simp [hl]

theorem interior_eq (g : Cfg) (h : BlockId) (ls : List BlockId) :
    interior g h ls = Flow.searchFrom (behind g h) (g.capacity + 1) ls := rfl

theorem nodup_lineUp (layout : List BlockId) : (lineUp layout).Nodup := by
  rw [lineUp, List.nodup_reverse]
  exact nodup_eraseDups _

section

include hf he

theorem mem_latchesOf :
    l ∈ latchesOf (Cfg.ofFunc f) (.ofCfg (Cfg.ofFunc f)) h ↔ f.Back e l h := by
  rw [latchesOf, List.mem_filter, Cfg.mem_preds_iff hf, Bool.and_eq_true, Cfg.reachable_iff hf he,
    Dominators.dominates_iff hf he]
  exact ⟨fun ⟨h, _, h'⟩ => ⟨h, h'⟩, fun ⟨h, h'⟩ => ⟨h, h'.1, h'⟩⟩

omit he in
theorem behind_mem_arena (x : BlockId) (_ : x ∈ f.arena) (y : BlockId)
    (hy : y ∈ behind (Cfg.ofFunc f) h x) : y ∈ f.arena := by
  have := ((Cfg.mem_preds_iff hf).1 (mem_behind.1 hy).2.1).1
  exact Func.mem_arena.2 (hf.layout y this)

theorem latchesOf_mem_arena (l : BlockId)
    (hl : l ∈ latchesOf (Cfg.ofFunc f) (.ofCfg (Cfg.ofFunc f)) h) : l ∈ f.arena :=
  Func.mem_arena.2 (hf.layout l ((mem_latchesOf hf he).1 hl).edge.1)

/-- Going back from the latches past anything but the header. -/
theorem mem_interior : x ∈ interior (Cfg.ofFunc f) h
      (latchesOf (Cfg.ofFunc f) (.ofCfg (Cfg.ofFunc f)) h) ↔
    ∃ l, f.Back e l h ∧ Flow.Reach (behind (Cfg.ofFunc f) h) l x := by
  rw [interior_eq, Flow.mem_searchFrom (behind_mem_arena hf) (latchesOf_mem_arena hf he)]
  · simp only [mem_latchesOf hf he]
  · rw [Func.length_arena, Cfg.capacity_ofFunc]
    omega

theorem reach_of_walk (hr : f.Leads e x) (hw : Walk f.Edge (· ≠ h) x l) :
    Flow.Reach (behind (Cfg.ofFunc f) h) l x := by
  induction hw with
  | refl => exact .refl
  | @tail y l hw hyl hl ih =>
    refine .head (mem_behind.2 ⟨hl, ?_⟩) ih
    exact ⟨(Cfg.mem_preds_iff hf).2 hyl, (Cfg.reachable_iff hf he).2 (hr.trans hw.reach)⟩

theorem mem_members : (x = h ∨ x ∈ interior (Cfg.ofFunc f) h
      (latchesOf (Cfg.ofFunc f) (.ofCfg (Cfg.ofFunc f)) h)) ↔
    x = h ∨ f.InLoop e h x := by
  rw [mem_interior hf he]
  constructor
  · rintro (rfl | ⟨l, hb, hr⟩)
    · exact .inl rfl
    · induction hr with
      | refl => exact .inr hb.inLoop
      | @tail y x _ hxy ih =>
        by_cases hx : x = h
        · exact .inl hx
        · obtain ⟨hy, hp, hr⟩ := mem_behind.1 hxy
          have hin := ih.resolve_left hy
          exact .inr (hin.back hy ((Cfg.reachable_iff hf he).1 hr) ((Cfg.mem_preds_iff hf).1 hp))
  · rintro (rfl | ⟨l, hb, hr⟩)
    · exact .inl rfl
    · rcases hr with rfl | ⟨hr, hw⟩
      · exact .inl rfl
      · exact .inr ⟨l, hb, reach_of_walk hf he hr hw⟩

theorem is_of_ofHeader? {r : Region}
    (h : ofHeader? f (Cfg.ofFunc f) (.ofCfg (Cfg.ofFunc f)) h = some r) : r.Is f e := by
  rw [ofHeader?] at h
  split at h
  · cases h
  case isFalse hne =>
    obtain rfl := Option.some.inj h
    obtain ⟨l, hl⟩ := List.exists_mem_of_ne_nil _ (fun he => hne (List.isEmpty_iff.2 he))
    have hhead := ((mem_latchesOf hf he).1 hl).inLoop.header
    refine ⟨fun l => mem_latchesOf hf he, (Cfg.nodup_preds f _).filter _, fun x => ?_,
      (nodup_lineUp _).filter _, hhead⟩
    rw [List.mem_filter, mem_lineUp, List.contains_iff_mem, List.mem_cons, mem_members hf he]
    constructor
    · rintro ⟨-, rfl | hx⟩
      · exact hhead
      · exact hx
    · intro hx
      obtain ⟨y, hy⟩ := hx.exists_edge
      exact ⟨hy.1, .inr hx⟩

theorem is_of_mem_all {r : Region}
    (h : r ∈ all f (Cfg.ofFunc f) (.ofCfg (Cfg.ofFunc f))) : r.Is f e := by
  obtain ⟨h, -, hr⟩ := List.mem_filterMap.1 h
  exact is_of_ofHeader? hf he hr

omit hf he in
theorem header_of_ofHeader? {g : Cfg} {dom : Dominators} {r : Region}
    (hr : ofHeader? f g dom h = some r) : r.header = h := by
  rw [ofHeader?] at hr
  split at hr
  · cases hr
  · exact Option.some.inj hr ▸ rfl

omit hf he in
theorem latches_of_mem_all {g : Cfg} {dom : Dominators} {r : Region} (h : r ∈ all f g dom) :
    r.latches = latchesOf g dom r.header := by
  obtain ⟨h, -, hr⟩ := List.mem_filterMap.1 h
  rw [header_of_ofHeader? hr]
  rw [ofHeader?] at hr
  split at hr
  · cases hr
  · exact Option.some.inj hr ▸ rfl

theorem exists_mem_all (hh : f.InLoop e h h) :
    ∃ r ∈ all f (Cfg.ofFunc f) (.ofCfg (Cfg.ofFunc f)), r.header = h := by
  obtain ⟨l, hb, -⟩ := hh
  have hl := (mem_latchesOf hf he).2 hb
  obtain ⟨r, hr⟩ : ∃ r, ofHeader? f (Cfg.ofFunc f) (.ofCfg (Cfg.ofFunc f)) h = some r := by
    rw [ofHeader?, if_neg]
    · exact ⟨_, rfl⟩
    · rw [List.isEmpty_iff]
      exact List.ne_nil_of_mem hl
  have hord := (Cfg.mem_order hf he).2 hb.inLoop.header.reach
  exact ⟨r, List.mem_filterMap.2 ⟨h, hord, hr⟩, header_of_ofHeader? hr⟩

omit hf he in
theorem headers_sublist (f : Func) (g : Cfg) (dom : Dominators) :
    ((all f g dom).map header).Sublist g.order := by
  rw [all]
  induction g.order with
  | nil => simp
  | cons h hs ih =>
    cases hr : ofHeader? f g dom h with
    | none =>
      rw [List.filterMap_cons_none hr]
      exact ih.cons h
    | some r =>
      rw [List.filterMap_cons_some hr, List.map_cons, header_of_ofHeader? hr]
      exact ih.cons_cons h

theorem nodup_headers :
    ((all f (Cfg.ofFunc f) (.ofCfg (Cfg.ofFunc f))).map header).Nodup :=
  (headers_sublist f _ _).nodup (Cfg.nodup_order hf he)

end

/-! What is read off a region. -/

section Is

variable {r : Region} (hr : r.Is f e)

include hr

theorem contains_iff : r.contains x ↔ f.InLoop e r.header x := by
  rw [contains, List.contains_iff_mem, hr.blocks]

theorem mem_exitsFrom {bs : List BlockId} {s : BlockId} :
    s ∈ r.exitsFrom (Cfg.ofFunc f) bs ↔ ¬ f.InLoop e r.header s ∧ ∃ b ∈ bs, f.Edge b s := by
  rw [exitsFrom, List.mem_eraseDups, List.mem_flatMap]
  simp only [List.mem_filter, Cfg.mem_succs, Bool.not_eq_true', ← Bool.not_eq_true,
    contains_iff hr]
  constructor
  · rintro ⟨b, hb, hs, hn⟩
    exact ⟨hn, b, hb, hs⟩
  · rintro ⟨hn, b, hb, hs⟩
    exact ⟨b, hb, hs, hn⟩

theorem mem_exits {s : BlockId} : s ∈ r.exits (Cfg.ofFunc f) ↔
    ¬ f.InLoop e r.header s ∧ ∃ b, f.InLoop e r.header b ∧ f.Edge b s := by
  rw [exits, mem_exitsFrom hr]
  simp only [hr.blocks]

theorem mem_nonLatchExits {s : BlockId} : s ∈ r.nonLatchExits (Cfg.ofFunc f) ↔
    ¬ f.InLoop e r.header s ∧
      ∃ b, (f.InLoop e r.header b ∧ ¬ f.Back e b r.header) ∧ f.Edge b s := by
  rw [nonLatchExits, mem_exitsFrom hr]
  simp only [List.mem_filter, hr.blocks, Bool.not_eq_true', ← Bool.not_eq_true,
    List.contains_iff_mem, hr.latches]

theorem mem_exiting {b : BlockId} : b ∈ r.exiting (Cfg.ofFunc f) ↔
    f.InLoop e r.header b ∧ ∃ s, f.Edge b s ∧ ¬ f.InLoop e r.header s := by
  rw [exiting, List.mem_filter, hr.blocks, List.any_eq_true]
  simp only [Cfg.mem_succs, Bool.not_eq_true', ← Bool.not_eq_true, contains_iff hr]

theorem only?_entering (hf : f.InArena) {p : BlockId} :
    only? (((Cfg.ofFunc f).preds r.header).filter fun q => !r.contains q) = some p ↔
      ∀ q, f.Edge q r.header ∧ ¬ f.InLoop e r.header q ↔ q = p := by
  rw [only?_eq_some_iff_mem ((Cfg.nodup_preds f _).filter _)]
  simp only [List.mem_filter, Cfg.mem_preds_iff hf, Bool.not_eq_true', ← Bool.not_eq_true,
    contains_iff hr]

/-- A preheader is the only block outside that leads to the header, and leads nowhere else. -/
theorem preheader?_eq_some (hf : f.InArena) {p : BlockId} :
    r.preheader? (Cfg.ofFunc f) = some p ↔
      (∀ q, f.Edge q r.header ∧ ¬ f.InLoop e r.header q ↔ q = p) ∧
        (Cfg.ofFunc f).succs p = [r.header] := by
  rw [preheader?, Option.filter_eq_some_iff, only?_entering hr hf, decide_eq_true_eq]

end Is

theorem nodup_exits (r : Region) (g : Cfg) : (r.exits g).Nodup := nodup_eraseDups _

theorem nodup_exiting {r : Region} (hr : r.Is f e) (g : Cfg) : (r.exiting g).Nodup :=
  hr.nodup.filter _

end Region

end LoopFusion
