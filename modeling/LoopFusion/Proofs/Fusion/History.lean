import LoopFusion.Proofs.Fusion.Look
import LoopFusion.Proofs.Fusion.Pairing
import LoopFusion.Proofs.Fusion.Questions
import LoopFusion.Proofs.Symbolic.History

/-!
Pairs that were judged earlier. As long as no description goes deeper than the engine looks, a pair
gets the verdict from an engine in use that it gets from a new one.
-/

namespace LoopFusion

open Inquiry Describe

variable {f : Func} {e : BlockId} {a b : Loop} {keep : Bool} {s u : Session}

theorem Concord.history (hf : Shallow f f.forest) : Concord f (informed f f.forest) (· = ·) True :=
  .of_eq (fun v scope => (settles hf v scope).alongside (settles hf v scope))
    alongside_unknown_informed fun _ _ _ h => h.1

/-- A question that is answered alike by sessions that could find out the same. -/
theorem Inquiry.Alongside.fresh {α : Type} {P : α → α → Prop} {q : Inquiry α}
    (h : Alongside (informed f f.forest) P q q) (hs : Ready f f.forest s) :
    P (q s).1 (q s.fresh).1 ∧ (q s).2.symbols = (q s.fresh).2.symbols ∧
      Ready f f.forest (q s).2 := by
  obtain ⟨hP, hsym, hready, -⟩ := h s s.fresh ⟨rfl, hs, ready_of_nil rfl⟩ trivial
  exact ⟨hP, hsym, hready⟩

theorem Check.Match.eq {α : Type} {x y : Except Rejection α} (h : Match True (· = ·) x y) : x = y := by
  cases h with
  | ok h => rw [h]
  | error h => rw [h.2 trivial]

/-! Scans and single pairs. -/

namespace Pass

variable {c : Checker} {sc : Scan} {seen : LastSeen} {rest : List Loop} {prev l : Loop}
  {p : FusionPlan} {next : Scan → Inquiry Scan} {config : FusionConfig}

/-- A walk at a pair: the verdict is the plan, or the walk goes on. -/
theorem examine_cases (c : Checker) (sc : Scan) (prev l : Loop) (next : Scan → Inquiry Scan)
    (s : Session) : ∃ s₁, s₁.symbols = s.symbols ∧ s₁.memo = s.memo ∧
      ((∃ p, (judge c prev l s₁).1 = .ok p ∧ (examine c sc prev l next s).1.plan? = some p ∧
          (examine c sc prev l next s).2.symbols = (judge c prev l s₁).2.symbols) ∨
        ∃ r sc' s₂, (judge c prev l s₁).1 = .error r ∧ sc'.plan? = sc.plan? ∧
          s₂.symbols = (judge c prev l s₁).2.symbols ∧ s₂.memo = (judge c prev l s₁).2.memo ∧
          examine c sc prev l next s = next sc' s₂) := by
  let message := "candidate found: " ++ ((pairName c.func prev l).first ++ " and " ++
    (pairName c.func prev l).second)
  have hrun : ∀ k : Except Rejection FusionPlan → Inquiry Scan,
      (do trace message; k (← judge c prev l) : Inquiry Scan) s =
        k (judge c prev l (trace message s).2).1 (judge c prev l (trace message s).2).2 :=
    fun _ => rfl
  refine ⟨(trace message s).2, rfl, rfl, ?_⟩
  cases hv : (judge c prev l (trace message s).2).1 with
  | ok p =>
    refine .inl ⟨p, rfl, ?_⟩
    rw [examine, hrun, hv]
    exact ⟨rfl, rfl⟩
  | error r =>
    refine .inr ⟨r, _, _, rfl, ?_, ?_, ?_, by rw [examine, hrun, hv]; rfl⟩ <;> rfl

/-- The verdict on a pair stays the same when the engine is new and more names are known. -/
theorem judge_later (hf : Shallow f f.forest) (hs : Ready f f.forest s)
    (hle : (judge (.builtIn (.ofFunc f) keep) a b s).2.symbols ≤ u.symbols) :
    Check.Match False (· = ·) (judge (.builtIn (.ofFunc f) keep) a b s).1
      (judge (.builtIn (.ofFunc f) keep) a b u.fresh).1 := by
  obtain ⟨hsame, hsym, -⟩ := (alongside_judge (Concord.history hf) keep a b).fresh hs
  rw [hsame.eq]
  rw [hsym] at hle
  have hgrow : s.symbols ≤ u.symbols := SymbolTable.le_trans (grows_judge s.fresh) hle
  exact (alongside_judge (Concord.replay f u.symbols) keep a b s.fresh u.fresh
    ⟨rfl, hgrow, SymbolTable.le_refl _⟩ hle).1

end Pass

namespace PairFusion

variable {verify : Bool} {p : FusionPlan}

theorem withHeader?_header (hf : f.InArena) (he : f.entry? = some e) (ha : a ∈ f.forest.loops) :
    f.forest.withHeader? a.header = some a := by
  rw [LoopForest.withHeader?]
  cases hfind : f.forest.loops.find? (·.header = a.header) with
  | none => exact absurd (decide_eq_true rfl) (List.find?_eq_none.1 hfind a ha)
  | some x =>
    have hx : x.header = a.header := by simpa using List.find?_some hfind
    rw [LoopForest.eq_of_header hf he (List.mem_of_find?_eq_some hfind) ha hx]

theorem plan_eq_some_iff (hf : f.InArena) (he : f.entry? = some e) (ha : a ∈ f.forest.loops)
    (hb : b ∈ f.forest.loops) :
    ((⟨a.header, b.header, keep, verify⟩ : PairFusion).plan f u).1 = .ok (some p) ↔
      (Pass.judge (.builtIn (.ofFunc f) keep) a b u.fresh).1 = .ok p := by
  have hloops : (FlowFacts.ofFunc f).loops = f.forest := rfl
  let verdict := ((Checker.builtIn (.ofFunc f) keep).checkCandidate a b).verdict
  have hrun : ∀ {β : Type} (k : Except Rejection Unit → Inquiry β),
      (do forget; k (← verdict) : Inquiry β) u = k (verdict u.fresh).1 (verdict u.fresh).2 :=
    fun _ => rfl
  rw [plan, Pass.judge_eq]
  dsimp only
  rw [hloops, withHeader?_header hf he ha, withHeader?_header hf he hb]
  dsimp only
  rw [hrun]
  change _ ↔ Pass.concluded f a b (verdict u.fresh).1 = _
  cases (verdict u.fresh).1 with
  | error r => exact ⟨nofun, nofun⟩
  | ok _ =>
    change (FusionPlan.ofLoops f a b).map some = _ ↔ (FusionPlan.ofLoops f a b).mapError _ = _
    cases FusionPlan.ofLoops f a b with
    | error e => exact ⟨nofun, nofun⟩
    | ok q => simp [Except.map, Except.mapError]

end PairFusion

namespace Pass

variable {sc : Scan} {seen : LastSeen} {rest : List Loop} {p : FusionPlan} {config : FusionConfig}

theorem walk_found (hf : Shallow f f.forest) (hs : Ready f f.forest s) (hsc : sc.plan? = none)
    (hseen : ∀ x ∈ seen, x.2 ∈ f.forest.loops) (hrest : ∀ l ∈ rest, l ∈ f.forest.loops)
    (h : (walk (.builtIn (.ofFunc f) keep) sc seen rest s).1.plan? = some p) :
    ∃ a ∈ f.forest.loops, ∃ b ∈ f.forest.loops, ∃ w, Ready f f.forest w ∧
      (judge (.builtIn (.ofFunc f) keep) a b w).1 = .ok p ∧
      (judge (.builtIn (.ofFunc f) keep) a b w).2.symbols ≤
        (walk (.builtIn (.ofFunc f) keep) sc seen rest s).2.symbols := by
  induction rest generalizing sc seen s with
  | nil =>
    have h : sc.plan? = some p := h
    rw [hsc] at h
    cases h
  | cons l rest ih =>
    obtain ⟨hl, hrest⟩ := List.forall_mem_cons.1 hrest
    have hseen' : ∀ d, ∀ x ∈ (d, l) :: seen, x.2 ∈ f.forest.loops := fun d =>
      List.forall_mem_cons.2 ⟨hl, hseen⟩
    generalize hc : Checker.builtIn (.ofFunc f) keep = c at ih h ⊢
    cases hprev : (seen.lookup (c.facts.loops.depth l.id)).filter (·.parent? = l.parent?) with
    | none =>
      rw [walk_unpaired hprev] at h ⊢
      exact ih hs hsc (hseen' _) hrest h
    | some prev =>
      have hp : prev ∈ f.forest.loops :=
        hseen _ (mem_of_lookup (Option.filter_eq_some_iff.1 hprev).1)
      rw [walk_paired hprev] at h ⊢
      obtain ⟨s₁, hsym, hmemo, hok | hno⟩ := examine_cases c sc prev l
        (fun sc => walk c sc ((c.facts.loops.depth l.id, l) :: seen) rest) s
      · obtain ⟨q, hq, hplan, hnames⟩ := hok
        rw [hplan] at h
        cases h
        refine ⟨prev, hp, l, hl, s₁, hs.named hmemo (hsym ▸ SymbolTable.le_refl _), hq, ?_⟩
        rw [hnames]
        exact SymbolTable.le_refl _
      · obtain ⟨r, sc', s₂, -, hsc', hnames, hanswers, hnext⟩ := hno
        rw [hnext] at h ⊢
        subst hc
        have hjudge := ((alongside_judge (Concord.history hf) keep prev l).fresh
          (hs.named hmemo (hsym ▸ SymbolTable.le_refl _))).2.2
        have hs₂ : Ready f f.forest s₂ := hjudge.named hanswers (hnames ▸ SymbolTable.le_refl _)
        exact ih hs₂ (hsc'.trans hsc) (hseen' _) hrest h

theorem ready_walk (hf : Shallow f f.forest) (hs : Ready f f.forest s) :
    Ready f f.forest (walk (.builtIn (.ofFunc f) keep) sc seen rest s).2 :=
  (Alongside.fresh (alongside_walk (Concord.history hf) ⟨rfl, rfl, rfl⟩) hs).2.2

theorem plan_of_scan (hw : f.WellFormed e) (hf : Shallow f f.forest)
    (hle : (scan config f s).2.symbols ≤ u.symbols) (h : (scan config f s).1.plan? = some p) :
    ∃ a ∈ f.forest.loops, ∃ b ∈ f.forest.loops, ∀ verify,
      ((⟨a.header, b.header, config.keepOutputs, verify⟩ : PairFusion).plan f u).1 =
        .ok (some p) := by
  have hloops : ∀ l ∈ f.forest.preorder.filterMap f.forest.loop?, l ∈ f.forest.loops := by
    intro l hl
    obtain ⟨i, -, hi⟩ := List.mem_filterMap.1 hl
    exact (LoopForest.mem_of_loop? hi).1
  obtain ⟨a, ha, b, hb, w, hready, hjudge, hnames⟩ :=
    walk_found (s := s.fresh) hf (ready_of_nil rfl) rfl (by simp) hloops h
  refine ⟨a, ha, b, hb, fun verify => ?_⟩
  rw [PairFusion.plan_eq_some_iff hw.inArena hw.entry ha hb]
  have hlater := judge_later hf hready (SymbolTable.le_trans hnames hle)
  rw [hjudge] at hlater
  generalize (judge (.builtIn (.ofFunc f) config.keepOutputs) a b u.fresh).1 = v at hlater ⊢
  cases hlater with
  | ok heq => rw [heq]

/-- A scan that finds nothing has missed no pair that has a plan. -/
theorem no_plan_of_scan (hw : f.WellFormed e) (hf : Shallow f f.forest)
    (hle : (scan config f s).2.symbols ≤ u.symbols) (h : (scan config f s).1.plan? = none)
    (ha : a ∈ f.forest.loops) (hb : b ∈ f.forest.loops) (verify : Bool) (p : FusionPlan) :
    ((⟨a.header, b.header, config.keepOutputs, verify⟩ : PairFusion).plan f u).1 ≠
      .ok (some p) := by
  rw [Ne, PairFusion.plan_eq_some_iff hw.inArena hw.entry ha hb]
  intro hplan
  have haccepts : (Checker.builtIn (.ofFunc f) config.keepOutputs).Accepts f e a b :=
    ⟨hw, rfl, ha, hb, u.fresh, _, Checker.verdict_eq_ok.1 (Prod.ext (verdict_of_judge hplan) rfl)⟩
  obtain ⟨before, after, -, hscan⟩ :=
    haccepts.nextSibling.scan_eq hw.inArena hw.entry ha hb
  have hrun : ∀ k : Scan → Inquiry Scan,
      (do
        forget
        k (← walk (checker config f) ⟨0, [], none⟩ [] before) : Inquiry Scan) s =
      k (walk (checker config f) ⟨0, [], none⟩ [] before s.fresh).1
        (walk (checker config f) ⟨0, [], none⟩ [] before s.fresh).2 := fun _ => rfl
  rw [hscan config, hrun] at h hle
  have hready : Ready f f.forest (walk (checker config f) ⟨0, [], none⟩ [] before s.fresh).2 :=
    ready_walk hf (ready_of_nil rfl)
  generalize walk (checker config f) ⟨0, [], none⟩ [] before s.fresh = w at h hle hready
  by_cases hfound : w.1.plan?.isSome
  · rw [if_pos hfound] at h
    change w.1.plan? = none at h
    rw [h] at hfound
    cases hfound
  · rw [if_neg hfound] at h hle
    obtain ⟨s₁, hsym, hmemo, hok | hno⟩ := examine_cases (checker config f) w.1 a b (fun scan =>
      walk (checker config f) scan (seenAfter (checker config f) (before ++ [b]) []) after) w.2
    · obtain ⟨q, -, hq, -⟩ := hok
      rw [h] at hq
      cases hq
    · obtain ⟨r, sc', s₂, hr, -, hnames, -, hnext⟩ := hno
      rw [hnext] at hle
      have hle : s₂.symbols ≤ u.symbols := SymbolTable.le_trans (grows_walk s₂) hle
      rw [hnames] at hle
      have hlater := judge_later hf (hready.named hmemo (hsym ▸ SymbolTable.le_refl _)) hle
      rw [hplan] at hlater
      have hr : (judge (.builtIn (.ofFunc f) config.keepOutputs) a b s₁).1 = .error r := hr
      rw [hr] at hlater
      cases hlater

end Pass

/-- As long as no description goes deeper than the engine looks, no answer depends on what the engine
was asked before: values, trip counts, dependences and verdicts are what a new engine finds with the
same names. So a scan, which asks one engine about all its pairs, finds the plan that its pair has for
itself, and finds nothing only where no pair has a plan. -/
theorem Engine.history_irrelevant (f : Func) (hv : f.verify = .ok ()) (hf : Shallow f f.forest)
    (keep : Bool) (qs : List Question) (s : Session) (hs : s.memo = []) :
    let c := Checker.builtIn (.ofFunc f) keep
    let t := (c.serve qs s).2
    (∀ v scope, (c.engine.evolution v scope t).1 = (c.engine.evolution v scope t.fresh).1) ∧
    (∀ l, (c.engine.tripCount l t).1 = (c.engine.tripCount l t.fresh).1) ∧
    (∀ x y same, (c.oracle.depends x y same t).1 = (c.oracle.depends x y same t.fresh).1) ∧
    (∀ a b, ((c.checkCandidate a b).verdict t).1 = ((c.checkCandidate a b).verdict t.fresh).1) ∧
    ∀ config u u', (Pass.scan config f u).2.symbols ≤ u'.symbols →
      (∀ p, (Pass.scan config f u).1.plan? = some p →
        ∃ a ∈ f.forest.loops, ∃ b ∈ f.forest.loops, ∀ verify,
          ((⟨a.header, b.header, config.keepOutputs, verify⟩ : PairFusion).plan f u').1 =
            .ok (some p)) ∧
      ((Pass.scan config f u).1.plan? = none →
        ∀ a ∈ f.forest.loops, ∀ b ∈ f.forest.loops, ∀ verify p,
          ((⟨a.header, b.header, config.keepOutputs, verify⟩ : PairFusion).plan f u').1 ≠
            .ok (some p)) := by
  obtain ⟨e, hw⟩ := Func.wellFormed_of_verify hv
  have hc := Concord.history hf
  have hready : Ready f f.forest ((Checker.builtIn (.ofFunc f) keep).serve qs s).2 :=
    ((hc.alongside_serve qs).fresh (ready_of_nil hs)).2.2
  refine ⟨fun v scope => ?_, fun l => ?_, fun x y same => ((hc.answer x y same).fresh hready).1,
    fun a b => (Alongside.fresh hc.alongside_checkCandidate hready).1.eq, fun config u u' hle =>
      ⟨fun p => Pass.plan_of_scan hw hf hle, fun hnone a ha b hb =>
        Pass.no_plan_of_scan hw hf hle hnone ha hb⟩⟩
  · exact (((settles hf v scope).alongside (settles hf v scope)).fresh hready).1
  · exact Poly.eq_of_rel ((hc.tripCount l).fresh hready).1

theorem Describe.shallow_twoLoops : Shallow Func.twoLoops Func.twoLoops.forest :=
  shallow_of_ordered (by decide) (by decide +kernel) (by decide +kernel)

/-- An engine that has judged the pair judges it again. -/
theorem Engine.history_irrelevant_twoLoops : Func.twoLoops.verify = .ok () ∧
    Shallow Func.twoLoops Func.twoLoops.forest ∧
    (((Checker.builtIn (.ofFunc Func.twoLoops) true).checkCandidate .first .second).verdict
      ((Checker.builtIn (.ofFunc Func.twoLoops) true).serve [.candidate .first .second] .start).2).1 =
        .ok () := by
  obtain ⟨-, -, -, hverdict, -⟩ := history_irrelevant Func.twoLoops Func.verify_twoLoops
    shallow_twoLoops true [.candidate .first .second] .start rfl
  have hfresh := eq_ok_of_isOk
    (x := (((Checker.builtIn (.ofFunc Func.twoLoops) true).checkCandidate .first .second).verdict
      ((Checker.builtIn (.ofFunc Func.twoLoops) true).serve [.candidate .first .second]
        .start).2.fresh).1) (by decide +kernel)
  exact ⟨Func.verify_twoLoops, shallow_twoLoops, (hverdict _ _).trans hfresh⟩

/-- A number and 66 additions of one to it, each to the sum before. -/
def Func.ladder : Func := .build "f" do
  let n ← Build.param "n" .int
  let top ← (List.range 66).foldlM (fun v _ => Build.value (.binary .add v (.const 1))) n
  discard <| Build.emit (.ret (some top))

/-- When the top of the ladder was asked for before, the second sum is known as an unknown of its
own: it was then out of reach, and what was made of it is remembered. -/
theorem Engine.history_counts_ladder : Func.ladder.verify = .ok () ∧
    (Describe.value .ladder Func.ladder.forest (maxDepth + 1) (.inst ⟨1⟩) none
      ((Checker.builtIn (.ofFunc .ladder) true).serve [.evolution (.inst ⟨65⟩) none] .start).2).1 ≠
    (Describe.value .ladder Func.ladder.forest (maxDepth + 1) (.inst ⟨1⟩) none
      ((Checker.builtIn (.ofFunc .ladder) true).serve [.evolution (.inst ⟨65⟩) none]
        .start).2.fresh).1 := by
  exact ⟨eq_ok_of_isOk (by decide +kernel), by decide +kernel⟩

end LoopFusion
