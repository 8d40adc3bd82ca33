import LoopFusion.Proofs.Fusion.Directions

/-!
The distance check compares what it finds with the direction that the oracle reports, and warns if
they contradict each other. They never do, so no check and no run gives a warning.
-/

namespace LoopFusion

open Inquiry

namespace Check

variable {α β : Type} {c : Check α} {g : α → Check β} {q : Inquiry α} {x : Option α} {ok : Bool}
  {s : Session}

theorem calm_bind (hc : c.run.Calm) (hg : ∀ a, (g a).run.Calm) : (c >>= g).run.Calm := by
  rw [run_bind]
  refine hc.bind fun x => ?_
  cases x with
  | ok a => exact hg a
  | error r => exact calm_pure _

theorem calm_ask (hq : q.Calm) : (ask q).run.Calm := hq.bind fun _ => calm_pure _

theorem calm_reject (r : Rejection) : (reject r : Check α).run.Calm :=
  (gathers_write (by decide) _ _).calm.bind fun _ => calm_pure _

theorem calm_reject_bind (r : Rejection) (g : α → Check β) : (reject r >>= g).run.Calm :=
  (calm_reject r : (reject r : Check β).run.Calm)

theorem calm_demand_bind {g : Unit → Check β} (r : Rejection) (hg : ok = true → (g ()).run.Calm) :
    (demand ok r >>= g).run.Calm := by
  cases ok with
  | true => exact hg rfl
  | false => exact calm_reject_bind r g

theorem calm_demand (ok : Bool) (r : Rejection) : (demand ok r).run.Calm := by
  cases ok with
  | true => exact calm_pure _
  | false => exact calm_reject r

theorem calm_need_bind (r : Rejection) (hg : ∀ a, x = some a → (g a).run.Calm) :
    (need x r >>= g).run.Calm := by
  cases x with
  | some a => exact hg a rfl
  | none => exact calm_reject_bind r g

theorem calm_need (x : Option α) (r : Rejection) : (need x r).run.Calm := by
  cases x with
  | some a => exact calm_pure _
  | none => exact calm_reject r

theorem calm_polyText (p : Poly) : (ask (polyText p)).run.Calm := fun _ => rfl

theorem demand_true_bind {g : Unit → Check β} (r : Rejection) :
    (demand true r >>= g) = g () := rfl

theorem need_some_bind (a : α) (r : Rejection) : (need (some a) r >>= g) = g a := rfl

end Check

namespace Checker

open Check

variable {f : Func} {keep : Bool} {a b l : Loop} {dep : Dependence} {c : Checker} {s : Session}

theorem calm_checkSiblings : (c.checkSiblings a b).run.Calm := calm_demand _ _

theorem calm_checkShape : (c.checkShape l).run.Calm := by
  refine calm_demand_bind _ fun _ => calm_need_bind _ fun exit _ => calm_demand_bind _ fun _ =>
    calm_need_bind _ fun op _ => ?_
  cases op with
  | condBr cond t e =>
    exact calm_demand_bind _ fun _ => calm_need_bind _ fun latch _ => calm_demand_bind _ fun _ =>
      calm_demand _ _
  | _ => exact calm_reject_bind _ _

theorem calm_checkAdjacent : (c.checkAdjacent a b).run.Calm := by
  refine calm_need_bind _ fun entry _ => calm_demand_bind _ fun _ => ?_
  split
  · exact calm_reject_bind _ _
  · exact calm_demand _ _

theorem calm_checkFlow : (c.checkFlow a b).run.Calm := calm_demand _ _

theorem calm_checkScalars : (c.checkScalars a b).run.Calm := by
  unfold checkScalars
  split
  · exact calm_reject _
  · exact calm_pure _

theorem calm_tripCount (l : Loop) : ((builtIn (.ofFunc f) keep).tripCount l).run.Calm :=
  calm_bind (calm_ask (Describe.gathers_tripCount f f.forest l.id).calm) fun _ =>
    calm_need _ _

theorem calm_checkTripCounts : ((builtIn (.ofFunc f) keep).checkTripCounts a b).run.Calm :=
  calm_bind (calm_tripCount a) fun _ => calm_bind (calm_tripCount b) fun _ =>
    calm_bind (calm_polyText _) fun _ => calm_bind (calm_polyText _) fun _ => calm_demand _ _

theorem calm_checkVariables : ((builtIn (.ofFunc f) keep).checkVariables a b).run.Calm := by
  have hask : ∀ v scope, (ask ((builtIn (.ofFunc f) keep).engine.evolution v scope)).run.Calm :=
    fun v scope => calm_ask (Describe.gathers_value f f.forest _ v scope).calm
  refine calm_need_bind _ fun iva _ => calm_need_bind _ fun ivb _ => calm_demand_bind _ fun _ =>
    calm_bind (hask _ _) fun x => calm_bind (hask _ _) fun y => ?_
  cases x <;> cases y <;> first | exact calm_demand _ _ | exact calm_reject _

/-- What is found out about a dependence gives no warning if it does not contradict the report. -/
theorem calm_weigh {first? second? : Option AffineAccess}
    (h : ∀ first second d, first? = some first → second? = some second →
      c.engine.nonZero first.stride → c.engine.nonZero second.stride →
      first.stride = second.stride → c.scaledDistance? first second = some d →
      c.Compatible dep.direction d) : (c.weigh dep first? second?).run.Calm := by
  refine calm_need_bind _ fun first hfirst => calm_need_bind _ fun second hsecond =>
    calm_demand_bind _ fun hnz => calm_bind (calm_polyText _) fun _ =>
      calm_bind (calm_polyText _) fun _ => calm_demand_bind _ fun hstride =>
        calm_need_bind _ fun d hd => calm_bind (calm_polyText _) fun _ => ?_
  obtain ⟨hnza, hnzb⟩ := Bool.and_eq_true_iff.1 hnz
  obtain ⟨hgt, hlt⟩ := h first second d hfirst hsecond hnza hnzb (of_decide_eq_true hstride) hd
  split
  case isTrue hge =>
    rw [if_neg fun hdir => hgt hdir hge]
    exact calm_pure _
  case isFalse =>
    split
    case isTrue hslt =>
      dsimp only
      rw [if_neg]
      · exact calm_reject _
      · intro hdir
        exact hlt (by simpa using hdir) hslt
    case isFalse => exact calm_reject _

theorem warnings_checkDistance
    (h : ∀ d, (builtIn (.ofFunc f) keep).Measures a b dep s d →
      (builtIn (.ofFunc f) keep).Compatible dep.direction d) :
    (((builtIn (.ofFunc f) keep).checkDistance a b dep).run s).2.warnings = s.warnings := by
  by_cases hin : (builtIn (.ofFunc f) keep).inLoop dep.src a ∧
      (builtIn (.ofFunc f) keep).inLoop dep.dst b
  · obtain ⟨hsrc, hdst⟩ := hin
    rw [checkDistance_eq_weigh hsrc hdst, run_ask_bind]
    have hfirst := (Engine.gathers_resolve f f.forest dep.src a.id s).warnings
    have hsecond := (Engine.gathers_resolve f f.forest dep.dst b.id
      ((Engine.ofFunc f f.forest).resolve f dep.src a.id s).2).warnings
    refine Eq.trans (calm_weigh (fun first second d hx hy hnza hnzb hstride hd => h d
      ⟨hsrc, hdst, first, second, _, _, Prod.ext hx rfl, Prod.ext hy rfl, hnza, hnzb, hstride,
        hd⟩) _) (hsecond.trans hfirst)
  · obtain ⟨l, hl⟩ := checkDistance_eq_reject hin
    rw [hl]
    exact calm_reject _ s

theorem calm_checkPair (x : InstId × InstId) :
    ((builtIn (.ofFunc f) keep).checkPair a b x).run.Calm := by
  intro s
  rw [checkPair_eq, run_ask_bind]
  obtain ⟨dep?, s₁, hdep⟩ : ∃ dep? s₁, (builtIn (.ofFunc f) keep).oracle.depends x.1 x.2 true s =
      (dep?, s₁) := ⟨_, _, rfl⟩
  have hknown : s.Extends s₁ := (Oracle.gathers_answer f f.forest x.1 x.2 true).of_eq hdep
  change (((builtIn (.ofFunc f) keep).checkReport a b
    ((builtIn (.ofFunc f) keep).oracle.depends x.1 x.2 true s).1).run
      ((builtIn (.ofFunc f) keep).oracle.depends x.1 x.2 true s).2).2.warnings = s.warnings
  rw [hdep]
  cases dep? with
  | none => exact hknown.warnings
  | some dep =>
    rw [checkReport]
    split
    case isFalse => exact hknown.warnings
    case isTrue =>
      rw [run_ask_bind]
      have hnoted : s₁.Extends (write .debug .legality ("checking dependence " ++
        dep.text (builtIn (.ofFunc f) keep).func) s₁).2 := gathers_write (by decide) _ _ s₁
      exact (warnings_checkDistance fun d hd => hd.compatible hdep hnoted).trans
        (hnoted.warnings.trans hknown.warnings)

theorem calm_checkDistances : ((builtIn (.ofFunc f) keep).checkDistances a b).run.Calm := by
  unfold checkDistances
  induction (builtIn (.ofFunc f) keep).pairs a b with
  | nil => exact calm_pure _
  | cons x rest ih => exact calm_bind (calm_checkPair x) fun _ => ih

theorem calm_checkCandidate : ((builtIn (.ofFunc f) keep).checkCandidate a b).run.Calm :=
  calm_bind calm_checkSiblings fun _ => calm_bind calm_checkShape fun _ =>
    calm_bind calm_checkShape fun _ => calm_bind calm_checkAdjacent fun _ =>
      calm_bind calm_checkTripCounts fun _ => calm_bind calm_checkFlow fun _ =>
        calm_bind calm_checkVariables fun _ => calm_bind calm_checkScalars fun _ =>
          calm_checkDistances

end Checker

namespace Pass

variable {f : Func} {keep : Bool} {config : FusionConfig} {a b : Loop}

theorem calm_trace (m : String) : (trace m).Calm := (gathers_write (by decide) _ m).calm

theorem calm_judge : (judge (.builtIn (.ofFunc f) keep) a b).Calm := by
  rw [judge_eq]
  exact Checker.calm_checkCandidate.bind fun _ => calm_pure _

theorem calm_walk (sc : Scan) (seen : LastSeen) (rest : List Loop) :
    (walk (.builtIn (.ofFunc f) keep) sc seen rest).Calm := by
  induction rest generalizing sc seen with
  | nil => exact calm_pure _
  | cons l rest ih =>
    rw [walk]
    split
    · exact ih _ _
    · refine (calm_trace _).bind fun _ => calm_judge.bind fun v => ?_
      cases v with
      | ok plan => exact (calm_trace _).bind fun _ => calm_pure _
      | error r => exact (calm_trace _).bind fun _ => ih _ _

theorem calm_scan : (scan config f).Calm := calm_forget.bind fun _ => calm_walk _ _ _

theorem calm_fuseChecked (p : FusionPlan) (verify : Bool) : (p.fuseChecked f verify).Calm := by
  have hfuse : (p.fuse f).Calm := by
    unfold FusionPlan.fuse
    split
    · exact (gathers_write (by decide) _ _).calm.bind fun _ => calm_pure _
    · exact calm_pure _
  refine hfuse.bind fun r => ?_
  cases r with
  | error e => exact calm_pure _
  | ok f' =>
    dsimp only
    split
    · exact calm_pure _
    · exact (gathers_write (by decide) _ _).calm.bind fun _ => calm_pure _

theorem calm_rounds (fuel : Nat) (f : Func) (report : FusionReport) :
    (rounds config fuel f report).Calm := by
  induction fuel generalizing f report with
  | zero => exact calm_pure _
  | succ fuel ih =>
    rw [rounds]
    split
    · exact (calm_trace _).bind fun _ => calm_pure _
    · refine (calm_trace _).bind fun _ => calm_scan.bind fun found => ?_
      dsimp only
      split
      · exact (calm_trace _).bind fun _ => calm_pure _
      · refine Calm.bind ((calm_fuseChecked _ _).bind fun r => ?_) fun r => ?_
        · cases r <;> exact calm_pure _
        · cases r with
          | error e => exact calm_pure _
          | ok next =>
            dsimp only
            split
            · exact ih _ _
            · exact calm_pure _

theorem calm_run : (run config f).Calm := by
  refine (calm_rounds _ _ _).bind fun o => ?_
  split
  · split
    · exact (gathers_write (by decide) _ _).calm.bind fun _ => calm_pure _
    · exact calm_pure _
  · exact calm_pure _

end Pass

open Build in
/-- The second loop reads what the first is to write one round later. -/
def Func.readAhead : Func := .build "f" do
  let a ← param "A" .ptr
  discard <| countedLoop "x" (.const 0) (.const 4) 1 fun i => do
    discard <| emit (.store (← value (.gep a i)) (.const 7))
  discard <| countedLoop "y" (.const 0) (.const 4) 1 fun j => do
    discard <| value (.load (← value (.gep a (← value (.binary .add j (.const 1))))))
  discard <| emit (.ret none)

theorem Func.length_readAhead : readAhead.forest.loops.length = 2 := by decide +kernel

namespace Checker

/-- Where the oracle reports that the second access comes in an earlier iteration, the distance is
not provably non-negative, and where it reports a later or the same one, not provably negative. Names
and answers found in between change nothing. So no check of distances and no run gives a warning. -/
theorem directions_agree (f : Func) (keep : Bool) (a b : Loop) :
    (∀ x y s dep s₁ s₂ d,
      (builtIn (.ofFunc f) keep).oracle.depends x y true s = (some dep, s₁) → s₁.Extends s₂ →
      (builtIn (.ofFunc f) keep).Measures a b dep s₂ d →
        (dep.direction = .gt → ¬ (builtIn (.ofFunc f) keep).engine.proves .sge d .zero) ∧
        (dep.direction = .lt ∨ dep.direction = .eq →
          ¬ (builtIn (.ofFunc f) keep).engine.proves .slt d .zero)) ∧
    (∀ s, (((builtIn (.ofFunc f) keep).checkDistances a b).run s).2.warnings = s.warnings) ∧
    ∀ config s, (Pass.run config f s).2.warnings = s.warnings :=
  ⟨fun _ _ _ _ _ _ _ h hs hd => hd.compatible h hs, calm_checkDistances, fun _ => Pass.calm_run⟩

/-- The oracle reports an earlier iteration, and the distance is minus one. -/
theorem directions_agree_readAhead : ∃ a ∈ Func.readAhead.forest.loops,
    ∃ b ∈ Func.readAhead.forest.loops, ∃ dep s₁,
      (builtIn (.ofFunc Func.readAhead) true).oracle.depends ⟨4⟩ ⟨14⟩ true .start = (some dep, s₁) ∧
      dep.direction = .gt ∧
      (builtIn (.ofFunc Func.readAhead) true).Measures a b dep s₁ (.const (-1)) ∧
      ¬ (builtIn (.ofFunc Func.readAhead) true).engine.proves .sge (.const (-1)) .zero := by
  let a := Func.readAhead.forest.loops.get ⟨0, by rw [Func.length_readAhead]; decide⟩
  let b := Func.readAhead.forest.loops.get ⟨1, by rw [Func.length_readAhead]; decide⟩
  have hanswer : ∀ {α : Type} {q : Inquiry (Option α)} {s : Session} {y : α},
      (q s).1 = some y → q s = (some y, (q s).2) := fun h => Prod.ext h rfl
  have hdep := hanswer (q := (builtIn (.ofFunc Func.readAhead) true).oracle.depends ⟨4⟩ ⟨14⟩ true)
    (s := .start) (y := .atDistance ⟨4⟩ ⟨14⟩ .flow (-1)) (by decide +kernel)
  have hmeasures : (builtIn (.ofFunc Func.readAhead) true).Measures a b
      (.atDistance ⟨4⟩ ⟨14⟩ .flow (-1))
      ((builtIn (.ofFunc Func.readAhead) true).oracle.depends ⟨4⟩ ⟨14⟩ true .start).2
      (.const (-1)) :=
    ⟨by decide +kernel, by decide +kernel, ⟨.symbol 0, .const 1⟩, ⟨⟨[([], 1), ([0], 1)]⟩, .const 1⟩,
      _, _, hanswer (by decide +kernel), hanswer (by decide +kernel), by decide +kernel⟩
  exact ⟨a, List.get_mem _ _, b, List.get_mem _ _, _, _, hdep, rfl, hmeasures,
    ((directions_agree _ true a b).1 _ _ _ _ _ _ _ hdep (.refl _) hmeasures).1 rfl⟩

end Checker

end LoopFusion
