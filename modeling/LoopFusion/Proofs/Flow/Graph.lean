import LoopFusion.Proofs.Flow.DomTree

/-!
The graph of a function: its edges, what its tables say about them, and dominance on it.
-/

namespace LoopFusion

open Relation LoopFusion.Flow

theorem mem_eraseReps {α : Type} [BEq α] [LawfulBEq α] {x : α} (l : List α) :
    x ∈ l.eraseReps ↔ x ∈ l := by
  have hloop : ∀ (l : List α) (a : α) (acc : List α),
      x ∈ List.eraseRepsBy.loop (· == ·) a l acc ↔ x ∈ acc ∨ x = a ∨ x ∈ l := by
    intro l
    induction l with
    | nil =>
      intro a acc
      simp [List.eraseRepsBy.loop, or_comm]
    | cons b l ih =>
      intro a acc
      rw [List.eraseRepsBy.loop]
      split
      case h_1 h =>
        obtain rfl := eq_of_beq h
        rw [ih, List.mem_cons]
        tauto
      case h_2 =>
        rw [ih, List.mem_cons, List.mem_cons]
        tauto
  cases l with
  | nil => rfl
  | cons a l =>
    rw [List.eraseReps, List.eraseRepsBy, hloop, List.mem_cons]
    simp

theorem Operation.nodup_targets (o : Operation) : o.targets.eraseReps.Nodup := by
  cases o with
  | condBr c s t =>
    by_cases h : s = t
    · simp [Operation.targets, List.eraseReps, List.eraseRepsBy, List.eraseRepsBy.loop, h]
    · have hne : (s == t) = false := beq_false_of_ne h
      simp [Operation.targets, List.eraseReps, List.eraseRepsBy, List.eraseRepsBy.loop, hne, h]
  | _ => simp [Operation.targets, List.eraseReps, List.eraseRepsBy, List.eraseRepsBy.loop]

theorem Operation.exists_phi {op : Operation} (h : op.isPhi) : ∃ incoming, op = .phi incoming := by
  cases op <;> first | exact ⟨_, rfl⟩ | cases h

theorem of_guard {q : Prop} [Decidable q] {u : Unit} (h : (guard q : Option Unit) = some u) :
    q := by
  by_contra hn
  rw [guard, if_neg hn] at h
  cases h

theorem mem_of_lookup {α β : Type} [BEq α] [LawfulBEq α] {l : List (α × β)} {a : α} {b : β}
    (h : l.lookup a = some b) : (a, b) ∈ l := by
  obtain ⟨_, _, rfl, -⟩ := List.lookup_eq_some_iff.1 h
  exact List.mem_append_right _ (List.mem_cons_self ..)

namespace Func

variable {f : Func} {a b : BlockId}

theorem isTerminator_of_op? {i : InstId} {op : Operation} (h : f.op? i = some op) :
    f.isTerminator i = op.isTerminator := by
  rw [isTerminator, h, Option.any_some]

theorem isPhi_of_op? {i : InstId} {op : Operation} (h : f.op? i = some op) :
    f.isPhi i = op.isPhi := by
  rw [isPhi, h, Option.any_some]

theorem exists_phi {i : InstId} (h : f.isPhi i) : ∃ incoming, f.op? i = some (.phi incoming) := by
  obtain ⟨op, hop, hphi⟩ := (Option.any_eq_true ..).1 h
  obtain ⟨incoming, rfl⟩ := Operation.exists_phi hphi
  exact ⟨incoming, hop⟩

theorem hasResult_of_op? {i : InstId} {op : Operation} (h : f.op? i = some op) :
    f.hasResult i = op.hasResult := by
  rw [hasResult, h, Option.any_some]

theorem exitOp?_of_getLast? {i : InstId} {op : Operation} (hlast : (f.body b).getLast? = some i)
    (hop : f.op? i = some op) (ht : op.isTerminator) : f.exitOp? b = some op := by
  have hterm : f.isTerminator i := by rwa [isTerminator_of_op? hop]
  rw [exitOp?, terminator?, hlast, Option.filter_some, if_pos hterm, Option.bind_some, hop]

/-- Control may go from `a` to `b`. -/
def Edge (f : Func) (a b : BlockId) : Prop := a ∈ f.layout ∧ b ∈ f.successors a

abbrev Leads (f : Func) : BlockId → BlockId → Prop := ReflTransGen f.Edge

/-- A block of the layout that ends in a return. -/
def Returns (f : Func) (b : BlockId) : Prop := b ∈ f.layout ∧ (f.exitOp? b).any Operation.isRet

/-- The layout and the branches of its blocks name blocks of the arena. -/
structure InArena (f : Func) : Prop where
  layout : ∀ b ∈ f.layout, b.index < f.blocks.size
  targets : ∀ a b, f.Edge a b → b.index < f.blocks.size

theorem InArena.of_layout (hlayout : ∀ b ∈ f.layout, b.index < f.blocks.size)
    (htargets : ∀ a ∈ f.layout, ∀ b ∈ f.successors a, b.index < f.blocks.size) : f.InArena :=
  ⟨hlayout, fun a b hab => htargets a hab.1 b hab.2⟩

theorem successors_eq_nil (h : f.blocks.size ≤ b.index) : f.successors b = [] := by
  have hb : f.block? b = none := Array.getElem?_eq_none h
  simp [successors, exitOp?, terminator?, body, hb]

/-- All handles of blocks in the arena. -/
def arena (f : Func) : List BlockId := (List.range f.blocks.size).map BlockId.mk

theorem mem_arena : b ∈ f.arena ↔ b.index < f.blocks.size := by
  simp only [arena, List.mem_map, List.mem_range]
  constructor
  · rintro ⟨i, hi, rfl⟩
    exact hi
  · exact fun h => ⟨b.index, h, rfl⟩

theorem length_arena : f.arena.length = f.blocks.size := by simp [arena]

end Func

namespace Cfg

variable {f : Func} {a b p s e : BlockId}

theorem succs_ofFunc (f : Func) (b : BlockId) :
    (ofFunc f).succs b = if b ∈ f.layout then (f.successors b).eraseReps else [] := by
  simp only [succs, ofFunc, succTableOf, Array.getElem?_map]
  by_cases hb : b.index < f.blocks.size
  · simp [hb]
  · rw [Array.getElem?_eq_none (by simpa using hb), f.successors_eq_nil (by omega)]
    simp [List.eraseReps, List.eraseRepsBy]

theorem mem_succs : s ∈ (ofFunc f).succs b ↔ f.Edge b s := by
  rw [succs_ofFunc, Func.Edge]
  split
  case isTrue h => simp [mem_eraseReps, h]
  case isFalse h => simp [h]

theorem edge_succs : Edge (ofFunc f).succs = f.Edge := by
  funext a b
  exact propext mem_succs

theorem size_addEdges (b : BlockId) (ss : List BlockId) (t : Array (List BlockId)) :
    (ss.foldl (addEdge b) t).size = t.size := by
  induction ss generalizing t with
  | nil => rfl
  | cons s ss ih => rw [List.foldl_cons, ih, addEdge, Array.size_modify]

section AddEdges

variable (i : Nat) (t : Array (List BlockId))

theorem mem_addEdge : p ∈ (addEdge b t s)[i]?.getD [] ↔
    p ∈ t[i]?.getD [] ∨ i < t.size ∧ p = b ∧ s.index = i := by
  rw [addEdge, Array.getElem?_modify]
  by_cases hi : i < t.size
  · rw [Array.getElem?_eq_getElem hi]
    by_cases hs : s.index = i
    · simp only [if_pos hs, Option.map_some, Option.getD_some]
      split
      case isTrue h =>
        simp only [List.contains_iff_mem] at h
        constructor
        · exact .inl
        · rintro (hp | ⟨-, rfl, -⟩)
          · exact hp
          · exact h
      case isFalse => simp [hi, hs]
    · simp [hs]
  · simp [hi]

theorem nodup_addEdge (h : (t[i]?.getD []).Nodup) : ((addEdge b t s)[i]?.getD []).Nodup := by
  rw [addEdge, Array.getElem?_modify]
  split
  · cases ht : t[i]? with
    | none => simp
    | some ps =>
      simp only [ht, Option.getD_some, Option.map_some] at h ⊢
      split
      · exact h
      case isFalse hb =>
        refine List.nodup_append.2 ⟨h, List.nodup_singleton b, fun x hx y hy he => hb ?_⟩
        rw [List.contains_iff_mem, ← List.mem_singleton.1 hy]
        exact he ▸ hx
  · exact h

theorem mem_addEdges (ss : List BlockId) : p ∈ (ss.foldl (addEdge b) t)[i]?.getD [] ↔
    p ∈ t[i]?.getD [] ∨ i < t.size ∧ p = b ∧ ⟨i⟩ ∈ ss := by
  induction ss generalizing t with
  | nil => simp
  | cons s ss ih =>
    rw [List.foldl_cons, ih, mem_addEdge, addEdge, Array.size_modify, List.mem_cons]
    have hs : s.index = i ↔ (⟨i⟩ : BlockId) = s := by
      cases s
      simp [eq_comm]
    rw [hs]
    tauto

theorem nodup_addEdges (ss : List BlockId) (h : (t[i]?.getD []).Nodup) :
    ((ss.foldl (addEdge b) t)[i]?.getD []).Nodup := by
  induction ss generalizing t with
  | nil => exact h
  | cons s ss ih => exact ih _ (nodup_addEdge i t h)

end AddEdges

theorem mem_foldl_addEdges (succs : BlockId → List BlockId) (bs : List BlockId) (i : Nat)
    (t : Array (List BlockId)) :
    p ∈ (bs.foldl (fun t b => (succs b).foldl (addEdge b) t) t)[i]?.getD [] ↔
      p ∈ t[i]?.getD [] ∨ i < t.size ∧ p ∈ bs ∧ ⟨i⟩ ∈ succs p := by
  induction bs generalizing t with
  | nil => simp
  | cons b bs ih =>
    rw [List.foldl_cons, ih, mem_addEdges, size_addEdges, List.mem_cons]
    constructor
    · rintro ((h | ⟨hi, rfl, h⟩) | ⟨hi, h, h'⟩)
      · exact .inl h
      · exact .inr ⟨hi, .inl rfl, h⟩
      · exact .inr ⟨hi, .inr h, h'⟩
    · rintro (h | ⟨hi, rfl | h, h'⟩)
      · exact .inl (.inl h)
      · exact .inl (.inr ⟨hi, rfl, h'⟩)
      · exact .inr ⟨hi, h, h'⟩

theorem nodup_foldl_addEdges (succs : BlockId → List BlockId) (bs : List BlockId) (i : Nat)
    (t : Array (List BlockId)) (h : (t[i]?.getD []).Nodup) :
    ((bs.foldl (fun t b => (succs b).foldl (addEdge b) t) t)[i]?.getD []).Nodup := by
  induction bs generalizing t with
  | nil => exact h
  | cons b bs ih => exact ih _ (nodup_addEdges i t _ h)

theorem mem_preds : p ∈ (ofFunc f).preds b ↔ b.index < f.blocks.size ∧ f.Edge p b := by
  change p ∈ (predTableOf f (ofFunc f).succs)[b.index]?.getD [] ↔ _
  rw [predTableOf, mem_foldl_addEdges, mem_succs, Func.Edge]
  by_cases hb : b.index < f.blocks.size <;> simp [hb]

theorem nodup_preds (f : Func) (b : BlockId) : ((ofFunc f).preds b).Nodup := by
  change ((predTableOf f (ofFunc f).succs)[b.index]?.getD []).Nodup
  refine nodup_foldl_addEdges _ _ _ _ ?_
  rw [Array.getElem?_replicate]
  split <;> simp

theorem nodup_succs (f : Func) (b : BlockId) : ((ofFunc f).succs b).Nodup := by
  rw [succs_ofFunc]
  split
  · rw [Func.successors]
    cases f.exitOp? b with
    | none => simp [List.eraseReps, List.eraseRepsBy]
    | some o => exact o.nodup_targets
  · exact List.nodup_nil

section Row

variable {t : Array (List BlockId)} {i : Nat} (hi : i < t.size)

include hi

theorem addEdges_row (hb : b ∉ t[i]?.getD []) (ss : List BlockId) :
    (ss.foldl (addEdge b) t)[i]?.getD [] =
      t[i]?.getD [] ++ if ⟨i⟩ ∈ ss then [b] else [] := by
  induction ss using List.reverseRecOn with
  | nil => simp
  | append_singleton ss s ih =>
    have hlt : i < (ss.foldl (addEdge b) t).size := by rwa [size_addEdges]
    rw [Array.getElem?_eq_getElem hlt, Option.getD_some] at ih
    rw [List.foldl_append, List.foldl_cons, List.foldl_nil, addEdge, Array.getElem?_modify,
      Array.getElem?_eq_getElem hlt, Option.map_some, ih]
    by_cases hs : s.index = i
    · subst i
      by_cases hss : s ∈ ss <;> simp [hss, hb]
    · have hne : (⟨i⟩ : BlockId) ≠ s := fun h => hs (congrArg BlockId.index h.symm)
      simp [hs, hne]

theorem foldl_addEdges_row (succs : BlockId → List BlockId) {bs : List BlockId} (hn : bs.Nodup)
    (hbs : ∀ b ∈ bs, b ∉ t[i]?.getD []) :
    (bs.foldl (fun t b => (succs b).foldl (addEdge b) t) t)[i]?.getD [] =
      t[i]?.getD [] ++ bs.filter fun b => (succs b).contains ⟨i⟩ := by
  induction bs generalizing t with
  | nil => simp
  | cons b bs ih =>
    rw [List.nodup_cons] at hn
    rw [List.forall_mem_cons] at hbs
    have hrow := addEdges_row hi hbs.1 (succs b)
    have hout : ∀ c ∈ bs, c ∉ ((succs b).foldl (addEdge b) t)[i]?.getD [] := by
      intro c hc
      rw [hrow, List.mem_append, not_or]
      refine ⟨hbs.2 c hc, ?_⟩
      split
      · rw [List.mem_singleton]
        exact ne_of_mem_of_not_mem hc hn.1
      · exact List.not_mem_nil
    rw [List.foldl_cons, ih (by rwa [size_addEdges]) hn.2 hout, hrow, List.append_assoc,
      List.filter_cons]
    by_cases hs : (⟨i⟩ : BlockId) ∈ succs b <;> simp [hs]

end Row

theorem capacity_ofFunc (f : Func) : (ofFunc f).capacity = f.blocks.size := by
  simp [capacity, ofFunc, succTableOf]

theorem entry_ofFunc (f : Func) : Cfg.entry? (ofFunc f) = f.entry? := rfl

theorem order_eq_nil (he : f.entry? = none) : (ofFunc f).order = [] := by
  change f.entry?.elim [] _ = _
  rw [he]
  rfl

section Reachable

variable (hf : f.InArena)

include hf

theorem mem_preds_iff : p ∈ (ofFunc f).preds b ↔ f.Edge p b := by
  rw [mem_preds]
  exact ⟨fun h => h.2, fun h => ⟨hf.targets _ _ h, h⟩⟩

theorem preds_ofFunc (hn : f.layout.Nodup) (b : BlockId) :
    (ofFunc f).preds b = f.predecessors b := by
  by_cases hb : b.index < f.blocks.size
  · have hlt : b.index < (Array.replicate f.blocks.size ([] : List BlockId)).size := by
      rwa [Array.size_replicate]
    have hrow := foldl_addEdges_row hlt (ofFunc f).succs hn (by simp [hb])
    rw [Array.getElem?_replicate, if_pos hb, Option.getD_some, List.nil_append] at hrow
    refine hrow.trans (List.filter_congr fun p hp => ?_)
    rw [succs_ofFunc, if_pos hp]
    simp [mem_eraseReps]
  · have hnone : ∀ p, ¬ f.Edge p b := fun p hp => hb (hf.targets p b hp)
    have hleft : (ofFunc f).preds b = [] :=
      List.eq_nil_iff_forall_not_mem.2 fun p hp => hnone p ((mem_preds_iff hf).1 hp)
    rw [hleft, Func.predecessors, eq_comm, List.filter_eq_nil_iff]
    intro p hp hc
    exact hnone p ⟨hp, List.contains_iff_mem.1 hc⟩

theorem entry_mem_arena (he : f.entry? = some e) : e ∈ f.arena :=
  Func.mem_arena.2 (hf.layout e (List.mem_of_head? he))

theorem succs_mem_arena (x : BlockId) (_ : x ∈ f.arena) (y : BlockId)
    (hy : y ∈ (ofFunc f).succs x) : y ∈ f.arena :=
  Func.mem_arena.2 (hf.targets x y (mem_succs.1 hy))

omit hf in
theorem order_ofFunc (he : f.entry? = some e) :
    (ofFunc f).order = reversePostorder (ofFunc f).succs (f.blocks.size + 1) e := by
  change f.entry?.elim [] _ = _
  rw [he]
  rfl

theorem mem_order (he : f.entry? = some e) : b ∈ (ofFunc f).order ↔ f.Leads e b := by
  rw [order_ofFunc he, mem_reversePostorder (succs_mem_arena hf) (entry_mem_arena hf he)
    (by rw [Func.length_arena]; omega), Reach, edge_succs]

theorem nodup_order (he : f.entry? = some e) : (ofFunc f).order.Nodup := by
  rw [order_ofFunc he]
  exact nodup_reversePostorder (succs_mem_arena hf) (entry_mem_arena hf he)
    (by rw [Func.length_arena]; omega)

theorem reachable_iff (he : f.entry? = some e) : (ofFunc f).reachable b ↔ f.Leads e b := by
  rw [reachable, List.contains_iff_mem, mem_order hf he]

theorem mem_returns (he : f.entry? = some e) :
    b ∈ (ofFunc f).returns ↔ f.Returns b ∧ f.Leads e b := by
  rw [returns, List.mem_filter, reachable_iff hf he]
  exact and_congr_left' List.mem_filter

end Reachable

end Cfg

open Cfg

variable {f : Func} {a b e : BlockId}

namespace Dominators

variable (hf : f.InArena) (he : f.entry? = some e)

include hf he

theorem regular : Rooted.Regular
    ⟨e, (Cfg.ofFunc f).succs, (Cfg.ofFunc f).preds, (Cfg.ofFunc f).capacity + 1⟩ f.arena where
  root := entry_mem_arena hf he
  closed := succs_mem_arena hf
  bound := by simp [Func.length_arena, capacity_ofFunc]
  preds x y _ _ := by rw [mem_preds_iff hf, mem_succs]

theorem dominates_iff :
    (Dominators.ofCfg (Cfg.ofFunc f)).dominates a b = true ↔ Dom f.Edge e a b := by
  rw [Dominators.dominates, Dominators.ofCfg, entry_ofFunc, he]
  change (DomTree.ofRooted _).dominates a b = true ↔ _
  rw [DomTree.dominates_iff (regular hf he), edge_succs]

end Dominators

/-- Control from `b` can return, and never does so without coming to `a`. -/
structure PostDom (f : Func) (e a b : BlockId) : Prop where
  returns : ∃ r, f.Returns r ∧ f.Leads e r ∧ f.Leads b r
  visits : ∀ r, f.Returns r → f.Leads e r → ¬ Walk f.Edge (· ≠ a) b r

namespace PostDominators

variable (hf : f.InArena)

include hf

theorem regular (he : f.entry? = some e) :
    (reversed (Cfg.ofFunc f)).Regular (none :: f.arena.map some) where
  root := List.mem_cons_self ..
  closed x _ y hy := by
    refine List.mem_cons_of_mem _ ?_
    cases x with
    | none =>
      obtain ⟨r, hr, rfl⟩ := List.mem_map.1 hy
      have := ((mem_returns hf he).1 hr).1.1
      exact List.mem_map_of_mem (Func.mem_arena.2 (hf.layout r this))
    | some b =>
      obtain ⟨p, hp, rfl⟩ := List.mem_map.1 hy
      have := ((mem_preds_iff hf).1 hp).1
      exact List.mem_map_of_mem (Func.mem_arena.2 (hf.layout p this))
  bound := by simp [reversed, Func.length_arena, capacity_ofFunc]
  preds x y _ _ := by
    cases x <;> cases y <;> simp [reversed, mem_preds_iff hf, mem_succs]

theorem walk_iff {P : Option BlockId → Prop} (hn : P none) :
    Walk (Edge (reversed (Cfg.ofFunc f)).succs) P none (some b) ↔
      ∃ r ∈ (Cfg.ofFunc f).returns, Walk f.Edge (fun x => P (some x)) b r := by
  constructor
  · intro h
    generalize hy : some b = y at h
    induction h generalizing b with
    | refl => cases hy
    | @tail x y _ hxy hPy ih =>
      subst y
      cases x with
      | none =>
        obtain ⟨r, hr, hrb⟩ := List.mem_map.1 hxy
        obtain rfl := Option.some.inj hrb
        exact ⟨r, hr, .refl hPy⟩
      | some c =>
        obtain ⟨p, hp, hpb⟩ := List.mem_map.1 hxy
        obtain rfl := Option.some.inj hpb
        obtain ⟨r, hr, hw⟩ := ih rfl
        exact ⟨r, hr, .head hPy ((mem_preds_iff hf).1 hp) hw⟩
  · rintro ⟨r, hr, hw⟩
    have hstart : Walk (Edge (reversed (Cfg.ofFunc f)).succs) P none (some r) :=
      .single (List.mem_map_of_mem hr) hn hw.last
    -- backwards along the walk, which is built up from its other end
    have key : ∀ c, Walk f.Edge (fun x => P (some x)) b c →
        Walk (Edge (reversed (Cfg.ofFunc f)).succs) P none (some c) →
        Walk (Edge (reversed (Cfg.ofFunc f)).succs) P none (some b) := by
      intro c hw
      induction hw with
      | refl => exact id
      | @tail c d hw hcd _ ih =>
        exact fun hd => ih (.tail hd (List.mem_map_of_mem ((mem_preds_iff hf).2 hcd)) hw.last)
    exact key r hw hstart

/-- Postdominators are on all ways to a return. -/
theorem dominates_iff (he : f.entry? = some e) :
    (PostDominators.ofCfg (Cfg.ofFunc f)).dominates a b = true ↔ PostDom f e a b := by
  have hret : ∀ {Q : BlockId → Prop}, (∃ r ∈ (Cfg.ofFunc f).returns, Walk f.Edge Q b r) ↔
      ∃ r, f.Returns r ∧ f.Leads e r ∧ Walk f.Edge Q b r := by
    intro Q
    simp only [mem_returns hf he, and_assoc]
  have hreach := walk_iff (b := b) (P := fun _ => True) hf trivial
  have hwalk := walk_iff (b := b) (P := (· ≠ some a)) hf (by simp)
  rw [hret] at hreach hwalk
  rw [dominates, ofCfg, DomTree.dominates_iff (regular hf he), Dom, ← Walk.reach_iff]
  change Walk _ _ none _ ∧ ¬ Walk _ _ none _ ↔ _
  rw [hreach, hwalk]
  constructor
  · rintro ⟨⟨r, hr, hl, hw⟩, hn⟩
    refine ⟨⟨r, hr, hl, hw.reach⟩, fun r hr hl hw => hn ⟨r, hr, hl, ?_⟩⟩
    exact hw.mono fun x hx he => hx (Option.some.inj he)
  · rintro ⟨⟨r, hr, hl, hw⟩, hn⟩
    refine ⟨⟨r, hr, hl, .ofReach hw⟩, ?_⟩
    rintro ⟨r, hr, hl, hw⟩
    exact hn r hr hl (hw.mono fun x hx he => hx (he ▸ rfl))

end PostDominators

end LoopFusion
