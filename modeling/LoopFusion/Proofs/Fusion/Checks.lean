import LoopFusion.Fusion.Legality
import LoopFusion.Fusion.Plan
import LoopFusion.Proofs.Except

/-!
What it means that a check passes, for each of the checks that two loops have to pass.
-/

namespace LoopFusion

namespace Check

variable {α β : Type} {s s' : Session} {a : α} {b : β} {r : Rejection}

/-- The check ends with `a` and takes the session from `s` to `s'`. -/
def Yields (c : Check α) (s : Session) (a : α) (s' : Session) : Prop := c.run s = (.ok a, s')

theorem pure_yields {a' : α} : (pure a' : Check α).Yields s a s' ↔ a' = a ∧ s = s' := by
  change ((Except.ok a', s) : Except Rejection α × Session) = (.ok a, s') ↔ _
  simp

theorem bind_yields {c : Check α} {g : α → Check β} :
    (c >>= g).Yields s b s' ↔ ∃ a s₁, c.Yields s a s₁ ∧ (g a).Yields s₁ b s' := by
  have hrun : (c >>= g).run s = match c.run s with
      | (.ok a, s₁) => (g a).run s₁
      | (.error e, s₁) => (.error e, s₁) := by
    change (ExceptT.bind c g).run s = _
    simp only [ExceptT.bind, ExceptT.run, ExceptT.mk, bind, StateT.bind]
    rcases c s with ⟨_ | _, _⟩ <;> rfl
  rw [Yields, hrun]
  constructor
  · intro h
    split at h
    case h_1 a s₁ hc => exact ⟨a, s₁, hc, h⟩
    case h_2 => cases (Prod.mk.inj h).1
  · rintro ⟨a, s₁, hc, hg⟩
    rw [hc]
    exact hg

theorem ask_yields {q : Inquiry α} : (ask q).Yields s a s' ↔ q s = (a, s') := by
  have hrun : (ask q).run s = (.ok (q s).1, (q s).2) := rfl
  rw [Yields, hrun, Prod.ext_iff, Prod.ext_iff]
  simp

theorem reject_yields : ¬ (reject r : Check α).Yields s a s' := by
  rw [reject, bind_yields]
  rintro ⟨_, s₁, -, h⟩
  cases (Prod.mk.inj h).1

theorem demand_yields {ok : Bool} {u : Unit} :
    (demand ok r).Yields s u s' ↔ ok = true ∧ s = s' := by
  rw [demand]
  cases ok
  · simp [reject_yields]
  · simp [pure_yields]

theorem need_yields {x : Option α} : (need x r).Yields s a s' ↔ x = some a ∧ s = s' := by
  cases x with
  | none => simp [need, reject_yields]
  | some a' => simp [need, pure_yields]

theorem demand_bind {ok : Bool} {g : Unit → Check β} :
    (demand ok r >>= g).Yields s b s' ↔ ok = true ∧ (g ()).Yields s b s' := by
  simp only [bind_yields, demand_yields]
  exact ⟨fun ⟨_, _, ⟨hok, rfl⟩, h⟩ => ⟨hok, h⟩, fun ⟨hok, h⟩ => ⟨(), s, ⟨hok, rfl⟩, h⟩⟩

theorem need_bind {x : Option α} {g : α → Check β} :
    (need x r >>= g).Yields s b s' ↔ ∃ a, x = some a ∧ (g a).Yields s b s' := by
  simp only [bind_yields, need_yields]
  exact ⟨fun ⟨a, _, ⟨hx, rfl⟩, h⟩ => ⟨a, hx, h⟩, fun ⟨a, hx, h⟩ => ⟨a, s, ⟨hx, rfl⟩, h⟩⟩

theorem ask_bind {q : Inquiry α} {g : α → Check β} :
    (ask q >>= g).Yields s b s' ↔ (g (q s).1).Yields (q s).2 b s' := by
  simp only [bind_yields, ask_yields]
  constructor
  · rintro ⟨a, s₁, hq, h⟩
    rw [hq]
    exact h
  · exact fun h => ⟨_, _, rfl, h⟩

theorem reject_bind {g : α → Check β} : ¬ (reject r >>= g).Yields s b s' := by
  rw [bind_yields]
  rintro ⟨a, s₁, h, -⟩
  exact reject_yields h

theorem forM_yields {I : Session → Prop} {l : List α} {g : α → Check Unit}
    (hg : ∀ x ∈ l, ∀ s s', I s → (g x).Yields s () s' → I s') (hs : I s)
    (h : (l.forM g).Yields s () s') : ∀ x ∈ l, ∃ s₁ s₂, I s₁ ∧ (g x).Yields s₁ () s₂ := by
  induction l generalizing s with
  | nil => simp
  | cons x l ih =>
    obtain ⟨_, s₁, hx, hl⟩ := bind_yields.1 h
    rw [List.forall_mem_cons] at hg ⊢
    exact ⟨⟨s, s₁, hs, hx⟩, ih hg.2 (hg.1 s s₁ hs hx) hl⟩

end Check

namespace Checker

open Check

variable {c : Checker} {a b l : Loop} {s s' : Session}

/-- A loop that leaves from its header to one block, and whose latch only counts. -/
structure Shaped (c : Checker) (l : Loop) : Prop where
  simplified : l.isSimplified
  exit : ∃ exit, only? l.exits = some exit ∧
    ∃ cond t e, c.func.exitOp? l.header = some (.condBr cond t e) ∧ splits l exit t e
  exiting : l.exiting = [l.header]
  latch : ∃ latch, l.latch? = some latch ∧ c.func.exitOp? latch = some (.br l.header) ∧
    c.latchOnlySteps l latch

theorem checkSiblings_yields {u : Unit} : (c.checkSiblings a b).Yields s u s' ↔
    (a.parent? = b.parent? ∧ c.facts.loops.depth a.id = c.facts.loops.depth b.id) ∧ s = s' := by
  rw [checkSiblings, demand_yields, Bool.and_eq_true, decide_eq_true_eq, decide_eq_true_eq]

theorem checkShape_yields {u : Unit} : (c.checkShape l).Yields s u s' ↔ c.Shaped l ∧ s = s' := by
  rw [checkShape, demand_bind]
  simp only [need_bind, demand_bind, decide_eq_true_eq]
  constructor
  · rintro ⟨hsimp, exit, hexit, hexiting, op, hop, h⟩
    cases op <;> first
      | exact absurd h reject_bind
      | skip
    obtain ⟨hsplit, h⟩ := demand_bind.1 h
    obtain ⟨latch, hlatch, h⟩ := need_bind.1 h
    obtain ⟨hbr, h⟩ := demand_bind.1 h
    obtain ⟨hsteps, rfl⟩ := demand_yields.1 h
    exact ⟨⟨hsimp, ⟨exit, hexit, _, _, _, hop, hsplit⟩, hexiting, latch, hlatch,
      decide_eq_true_eq.mp hbr, hsteps⟩, rfl⟩
  · rintro ⟨⟨hsimp, ⟨exit, hexit, cond, t, e, hop, hsplit⟩, hexiting, latch, hlatch, hbr, hsteps⟩,
      rfl⟩
    refine ⟨hsimp, exit, hexit, hexiting, _, hop, demand_bind.2 ⟨hsplit, ?_⟩⟩
    refine need_bind.2 ⟨latch, hlatch, demand_bind.2 ⟨decide_eq_true hbr, ?_⟩⟩
    exact demand_yields.2 ⟨hsteps, rfl⟩

/-- The first loop leaves to where the second is entered, and nothing happens there. -/
structure Meets (c : Checker) (a b : Loop) : Prop where
  leaves : a.nonLatchExits ≠ []
  entry : ∃ entry, b.entry? = some entry ∧ (∀ x ∈ a.nonLatchExits, x = entry) ∧ c.handsOff b entry

theorem checkAdjacent_yields {u : Unit} :
    (c.checkAdjacent a b).Yields s u s' ↔ c.Meets a b ∧ s = s' := by
  rw [checkAdjacent, need_bind]
  simp only [demand_bind, Bool.not_eq_true', List.isEmpty_eq_false_iff]
  constructor
  · rintro ⟨entry, hentry, hne, h⟩
    split at h
    case h_1 => exact absurd h reject_bind
    case h_2 hfind =>
      obtain ⟨hoff, rfl⟩ := demand_yields.1 h
      refine ⟨⟨hne, entry, hentry, fun x hx => ?_, hoff⟩, rfl⟩
      simpa using List.find?_eq_none.1 hfind x hx
  · rintro ⟨⟨hne, entry, hentry, hall, hoff⟩, rfl⟩
    refine ⟨entry, hentry, hne, ?_⟩
    have hfind : a.nonLatchExits.find? (· ≠ entry) = none :=
      List.find?_eq_none.2 fun x hx => by simpa using hall x hx
    rw [hfind]
    exact demand_yields.2 ⟨hoff, rfl⟩

theorem checkFlow_yields {u : Unit} : (c.checkFlow a b).Yields s u s' ↔
    (c.facts.dom.dominates a.header b.header ∧ c.facts.postDom.dominates b.header a.header) ∧
      s = s' := by
  rw [checkFlow, demand_yields, Bool.and_eq_true]

theorem checkTripCounts_yields {u : Unit} (h : (c.checkTripCounts a b).Yields s u s') :
    ∃ p s₁, c.engine.tripCount a.id s = (some p, s₁) ∧ c.engine.tripCount b.id s₁ = (some p, s') := by
  simp only [checkTripCounts, tripCount, bind_yields, ask_yields, need_yields] at h
  obtain ⟨p, _, ⟨_, s₁, ha, rfl, rfl⟩, q, _, ⟨_, s₂, hb, rfl, rfl⟩, _, _, hx, _, _, hy, h⟩ := h
  obtain ⟨heq, rfl⟩ := demand_yields.1 h
  -- to write the counts down changes nothing
  obtain rfl : s₂ = _ := congrArg Prod.snd hx
  obtain rfl : s₂ = _ := congrArg Prod.snd hy
  obtain rfl := of_decide_eq_true heq
  exact ⟨p, s₁, ha, hb⟩

theorem checkVariables_yields {u : Unit} (h : (c.checkVariables a b).Yields s u s') :
    ∃ iva ivb p s₁, a.iv? = some iva ∧ b.iv? = some ivb ∧ iva.step = ivb.step ∧
      c.engine.evolution iva.start (some a.id) s = (.invariant p, s₁) ∧
      c.engine.evolution ivb.start (some b.id) s₁ = (.invariant p, s') := by
  simp only [checkVariables, bind_yields, ask_yields, need_yields, demand_yields] at h
  obtain ⟨iva, _, ⟨ha, rfl⟩, ivb, _, ⟨hb, rfl⟩, _, _, ⟨hstep, rfl⟩, x, s₁, hx, y, s₂, hy, h⟩ := h
  cases x <;> cases y <;> simp only [Evolution.invariant?] at h <;> first
    | exact absurd h reject_yields
    | skip
  obtain ⟨heq, rfl⟩ := demand_yields.1 h
  obtain rfl := of_decide_eq_true heq
  exact ⟨iva, ivb, _, s₁, ha, hb, of_decide_eq_true hstep, hx, hy⟩

theorem checkScalars_yields {u : Unit} :
    (c.checkScalars a b).Yields s u s' ↔ leak? c.func a b = none ∧ s = s' := by
  rw [checkScalars]
  cases leak? c.func a b with
  | none => simp [pure_yields]
  | some d => simp [reject_yields]

theorem of_mem_pairs (h : (x, y) ∈ c.pairs a b) : x ∈ a.blocks.flatMap c.func.body ∧
    y ∈ b.blocks.flatMap c.func.body ∧ c.func.accessesMemory x ∧ c.func.accessesMemory y ∧
      (c.func.writesMemory x ∨ c.func.writesMemory y) := by
  have haccess : ∀ {i}, c.func.writesMemory i → c.func.accessesMemory i := by
    intro i hi
    rw [Func.writesMemory, Option.any_eq_true] at hi
    obtain ⟨op, hop, hi⟩ := hi
    rw [Func.accessesMemory, hop]
    cases op <;> cases hi
    rfl
  simp only [pairs, Accesses.ofLoop, List.mem_append, List.mem_flatMap (b := (x, y)), List.mem_map,
    List.mem_filter, Bool.and_eq_true, Prod.mk.injEq] at h
  rcases h with (⟨_, ⟨hx, hwx⟩, _, ⟨hy, hay, -⟩, rfl, rfl⟩ |
    ⟨_, ⟨hx, hax, -⟩, _, ⟨hy, hwy⟩, rfl, rfl⟩) | h
  · exact ⟨hx, hy, haccess hwx, hay, .inl hwx⟩
  · exact ⟨hx, hy, hax, haccess hwy, .inr hwy⟩
  · split at h
    · simp only [List.mem_flatMap (b := (x, y)), List.mem_map, List.mem_filter, Prod.mk.injEq] at h
      obtain ⟨_, ⟨hx, hwx⟩, _, ⟨hy, hwy⟩, rfl, rfl⟩ := h
      exact ⟨hx, hy, haccess hwx, haccess hwy, .inl hwx⟩
    · cases h

/-- Both addresses are recurrences of the same stride, and the first starts no earlier. Asking for
them changes nothing else than the names that are known. -/
theorem checkDistance_yields {dep : Dependence} {u : Unit}
    (h : (c.checkDistance a b dep).Yields s u s') :
    c.inLoop dep.src a ∧ c.inLoop dep.dst b ∧ ∃ first second distance s₁ s₂,
      c.engine.resolve c.func dep.src a.id s = (some first, s₁) ∧
      c.engine.resolve c.func dep.dst b.id s₁ = (some second, s₂) ∧
      c.engine.nonZero first.stride ∧ first.stride = second.stride ∧
      c.scaledDistance? first second = some distance ∧ c.engine.proves .sge distance .zero ∧
      s'.memo = s₂.memo ∧ s'.symbols = s₂.symbols := by
  rw [checkDistance] at h
  obtain ⟨hsrc, h⟩ := demand_bind.1 h
  obtain ⟨hdst, h⟩ := demand_bind.1 h
  replace h := ask_bind.1 h
  replace h := ask_bind.1 h
  obtain ⟨first, hfirst, h⟩ := need_bind.1 h
  obtain ⟨second, hsecond, h⟩ := need_bind.1 h
  obtain ⟨hnz, h⟩ := demand_bind.1 h
  replace h := ask_bind.1 h
  replace h := ask_bind.1 h
  obtain ⟨hstride, h⟩ := demand_bind.1 h
  obtain ⟨distance, hdist, h⟩ := need_bind.1 h
  replace h := ask_bind.1 h
  refine ⟨hsrc, hdst, first, second, distance, _, _, Prod.ext hfirst rfl, Prod.ext hsecond rfl,
    (Bool.and_eq_true_iff.1 hnz).1, of_decide_eq_true hstride, hdist, ?_⟩
  split at h
  case isTrue hge =>
    refine ⟨hge, ?_⟩
    split at h
    · obtain rfl := congrArg Prod.snd (ask_yields.1 h)
      exact ⟨rfl, rfl⟩
    · obtain ⟨-, rfl⟩ := pure_yields.1 h
      exact ⟨rfl, rfl⟩
  case isFalse =>
    exfalso
    split at h
    · dsimp only at h
      split at h
      · obtain ⟨_, _, -, h⟩ := bind_yields.1 h
        exact reject_yields h
      · exact reject_yields h
    · exact reject_yields h

theorem checkPair_yields {x y : InstId} {u : Unit} (h : (c.checkPair a b (x, y)).Yields s u s') :
    c.oracle.depends x y true s = (none, s') ∨
      ∃ dep s₁, c.oracle.depends x y true s = (some dep, s₁) ∧
        (¬ c.matters dep ∧ s₁ = s' ∨ ∃ s₂, s₂.memo = s₁.memo ∧ s₂.symbols = s₁.symbols ∧
          (c.checkDistance a b dep).Yields s₂ () s') := by
  obtain ⟨dep?, s₁, hdep, h⟩ := bind_yields.1 h
  rw [ask_yields] at hdep
  cases dep? with
  | none =>
    obtain ⟨-, rfl⟩ := pure_yields.1 h
    exact .inl hdep
  | some dep =>
    refine .inr ⟨dep, s₁, hdep, ?_⟩
    dsimp only at h
    split at h
    case isTrue =>
      replace h := ask_bind.1 h
      refine .inr ⟨_, ?_, ?_, h⟩ <;> rfl
    case isFalse hm =>
      obtain ⟨-, rfl⟩ := pure_yields.1 h
      exact .inl ⟨hm, rfl⟩

/-- All that a legal pair has passed; the checks that ask questions take the session along. -/
structure Legal (c : Checker) (a b : Loop) (s s' : Session) : Prop where
  siblings : a.parent? = b.parent? ∧ c.facts.loops.depth a.id = c.facts.loops.depth b.id
  first : c.Shaped a
  second : c.Shaped b
  meets : c.Meets a b
  flow : c.facts.dom.dominates a.header b.header ∧ c.facts.postDom.dominates b.header a.header
  scalars : leak? c.func a b = none
  asked : ∃ s₁ s₂, (c.checkTripCounts a b).Yields s () s₁ ∧ (c.checkVariables a b).Yields s₁ () s₂ ∧
    (c.checkDistances a b).Yields s₂ () s'

theorem checkCandidate_yields {u : Unit} :
    (c.checkCandidate a b).Yields s u s' ↔ c.Legal a b s s' := by
  rw [checkCandidate]
  simp only [bind_yields, checkSiblings_yields, checkShape_yields, checkAdjacent_yields,
    checkFlow_yields, checkScalars_yields]
  constructor
  · rintro ⟨_, _, ⟨hsib, rfl⟩, _, _, ⟨ha, rfl⟩, _, _, ⟨hb, rfl⟩, _, _, ⟨hm, rfl⟩, _, s₁, ht, _, _,
      ⟨hflow, rfl⟩, _, s₂, hv, _, _, ⟨hs, rfl⟩, hd⟩
    exact ⟨hsib, ha, hb, hm, hflow, hs, s₁, s₂, ht, hv, hd⟩
  · rintro ⟨hsib, ha, hb, hm, hflow, hs, s₁, s₂, ht, hv, hd⟩
    exact ⟨(), _, ⟨hsib, rfl⟩, (), _, ⟨ha, rfl⟩, (), _, ⟨hb, rfl⟩, (), _, ⟨hm, rfl⟩, (), s₁, ht, (),
      _, ⟨hflow, rfl⟩, (), s₂, hv, (), _, ⟨hs, rfl⟩, hd⟩

theorem verdict_eq_ok : (c.checkCandidate a b).verdict s = (.ok (), s') ↔ c.Legal a b s s' :=
  checkCandidate_yields

end Checker

/-! The plan. -/

namespace LoopShape

variable {α : Type} {x : Option α} {a : α} {e : FusionError} {ok : Bool} {u : Unit}

theorem need_eq_ok : need x e = .ok a ↔ x = some a := by
  cases x <;> simp [need]

theorem demand_eq_ok : demand ok e = .ok u ↔ ok = true := by
  cases ok <;> simp [demand]

/-- The shape `s` of the loop `l`. -/
structure Of (s : LoopShape) (f : Func) (l : Loop) : Prop where
  header : s.header = l.header
  latch : l.latch? = some s.latch
  preheader : l.preheader? = some s.preheader
  guard : s.guard? = l.guard?
  counter : ∃ iv, l.iv? = some iv ∧ s.iv = iv.phi ∧ s.next = iv.next
  exit : only? l.exits = some s.exit
  branch : ∃ c t e, f.exitOp? l.header = some (.condBr c t e) ∧
    bodyHead? l s.exit t e = some s.bodyHead
  bodyHead_ne : s.bodyHead ≠ s.latch ∧ s.bodyHead ≠ s.header
  bodyTail : only? (f.predecessors s.latch) = some s.bodyTail
  bodyTail_ne : s.bodyTail ≠ s.header

theorem of_ofLoop {f : Func} {l : Loop} {s : LoopShape} (h : ofLoop f l = .ok s) : s.Of f l := by
  simp only [ofLoop, bind_eq_ok, need_eq_ok] at h
  obtain ⟨latch, hlatch, pre, hpre, iv, hiv, exit, hexit, op, hop, h⟩ := h
  cases op with
  | condBr c t e =>
    simp only [bind_eq_ok, need_eq_ok, demand_eq_ok, Bool.and_eq_true, decide_eq_true_eq] at h
    obtain ⟨bodyHead, hhead, -, hne, bodyTail, htail, -, hne', h⟩ := h
    obtain rfl := Except.ok.inj h
    exact ⟨rfl, hlatch, hpre, rfl, ⟨iv, hiv, rfl, rfl⟩, hexit, ⟨c, t, e, hop, hhead⟩, hne, htail,
      hne'⟩
  | _ =>
    obtain ⟨_, h, -⟩ := bind_eq_ok.1 h
    cases h

end LoopShape

namespace FusionPlan

open LoopShape

/-- The plan `p` for fusing the loop `b` into the loop `a`. -/
structure Of (p : FusionPlan) (f : Func) (a b : Loop) : Prop where
  first : p.first.Of f a
  second : p.second.Of f b
  meets : p.first.exit = p.second.entry
  counts : ∀ i ∈ f.body p.first.latch, i = p.first.next ∨ f.isTerminator i
  phis : f.phis p.second.header = [p.second.iv]
  exitPhis : f.phis p.second.exit = []
  unneeded : ∀ r ∈ p.retired, ∀ i ∈ f.body r, ¬ f.writesMemory i ∧
    (f.hasResult i → i ≠ p.second.iv → ¬ isUsedOutside f p.retired i)
  secondBody : p.secondBody = b.bodyBlocks
  retired : p.retired = retiredOf p.second
  redirected : p.redirected = (f.predecessors p.second.entry).filter fun q =>
    q ≠ p.first.header && !p.retired.contains q
  bypassTargets : p.bypassTargets = (p.second.guard?.elim [] f.successors).filter fun s =>
    !p.retired.contains s

theorem checkRetired_eq_ok {f : Func} {retired : List BlockId} {iv i : InstId} {b : BlockId} :
    checkRetired f retired iv b i = .ok () ↔ ¬ f.writesMemory i ∧
      (f.hasResult i → i ≠ iv → ¬ isUsedOutside f retired i) := by
  simp only [checkRetired, bind_eq_ok, demand_eq_ok, exists_const]
  cases f.writesMemory i <;> cases f.hasResult i <;> cases isUsedOutside f retired i <;> simp

theorem of_ofLoops {f : Func} {a b : Loop} {p : FusionPlan} (h : ofLoops f a b = .ok p) :
    p.Of f a b := by
  simp only [ofLoops, bind_eq_ok, demand_eq_ok] at h
  obtain ⟨first, hfirst, second, hsecond, -, hgap, -, hcount, -, hphis, -, hexit, ⟨⟩, hret, h⟩ := h
  obtain rfl := Except.ok.inj h
  refine ⟨of_ofLoop hfirst, of_ofLoop hsecond, of_decide_eq_true hgap, ?_,
    of_decide_eq_true hphis, List.isEmpty_iff.1 hexit, ?_, rfl, rfl, rfl, rfl⟩
  · intro i hi
    have := List.all_eq_true.1 hcount i hi
    simpa using this
  · intro r hr i hi
    exact checkRetired_eq_ok.1 ((forM_eq_ok _ _).1 ((forM_eq_ok _ _).1 hret r hr) i hi)

end FusionPlan

end LoopFusion
