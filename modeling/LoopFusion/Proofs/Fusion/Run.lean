import LoopFusion.Fusion.Pass
import LoopFusion.Proofs.Fusion.FusedVerified

/-!
The driver on well-formed functions: each plan it finds can be carried out, every function it goes
through is well formed, and it stops because nothing is left to fuse.
-/

namespace LoopFusion

open Inquiry

/-- What a look at any function has established about the plan that it finds. -/
structure FusionPlan.Found (p : FusionPlan) (f : Func) (a b : Loop) : Prop where
  first : a ∈ f.forest.loops
  second : b ∈ f.forest.loops
  legal : ∃ keep s s', (Checker.builtIn (.ofFunc f) keep).Legal a b s s'
  plan : p.Of f a b

namespace Pass

variable {f : Func} {e : BlockId} {config : FusionConfig} {report : FusionReport}

theorem verdict_ensures {c : Checker} {a b : Loop} : (c.checkCandidate a b).verdict.Ensures
    fun r => r = .ok () → ∃ s s', c.Legal a b s s' := fun s hr =>
  ⟨s, _, Checker.verdict_eq_ok.1 (Prod.ext hr rfl)⟩

theorem judge_finds {keep : Bool} {a b : Loop} (ha : a ∈ f.forest.loops)
    (hb : b ∈ f.forest.loops) : (judge (.builtIn (.ofFunc f) keep) a b).Ensures fun r =>
      ∀ p, r = .ok p → p.Found f a b := by
  refine verdict_ensures.bind fun r hr => ?_
  cases r with
  | error r => exact ensures_pure (fun p hp => by cases hp)
  | ok u =>
    obtain ⟨s, s', hlegal⟩ := hr rfl
    have hfunc : (Checker.builtIn (.ofFunc f) keep).func = f := rfl
    dsimp only
    rw [hfunc]
    cases hplan : FusionPlan.ofLoops f a b with
    | error e => exact ensures_pure (fun p hp => by cases hp)
    | ok p =>
      refine ensures_pure fun q hq => ?_
      obtain rfl := Except.ok.inj hq
      exact ⟨ha, hb, ⟨keep, s, s', hlegal⟩, FusionPlan.of_ofLoops hplan⟩

theorem walk_finds {keep : Bool} (sc : Scan) (seen : LastSeen)
    (rest : List Loop) (hsc : sc.plan? = none) (hseen : ∀ x ∈ seen, x.2 ∈ f.forest.loops)
    (hrest : ∀ l ∈ rest, l ∈ f.forest.loops) :
    (walk (.builtIn (.ofFunc f) keep) sc seen rest).Ensures fun r =>
      ∀ p, r.plan? = some p → ∃ a b, p.Found f a b := by
  induction rest generalizing sc seen with
  | nil => exact ensures_pure fun p hp => by simp [hsc] at hp
  | cons l rest ih =>
    obtain ⟨hl, hrest⟩ := List.forall_mem_cons.1 hrest
    have hseen' : ∀ d, ∀ x ∈ (d, l) :: seen, x.2 ∈ f.forest.loops := fun d =>
      List.forall_mem_cons.2 ⟨hl, hseen⟩
    rw [walk]
    split
    case h_1 => exact ih sc _ hsc (hseen' _) hrest
    case h_2 prev hprev =>
      obtain ⟨hlook, -⟩ := Option.filter_eq_some_iff.1 hprev
      have hp : prev ∈ f.forest.loops := hseen _ (mem_of_lookup hlook)
      refine ensures_bind fun _ => (judge_finds hp hl).bind fun r hr => ?_
      cases r with
      | error r => exact ensures_bind fun _ => ih _ _ hsc (hseen' _) hrest
      | ok p =>
        refine ensures_bind fun _ => ensures_pure fun q hq => ?_
        obtain rfl := Option.some.inj hq
        exact ⟨prev, l, hr p rfl⟩

theorem scan_finds (config : FusionConfig) (f : Func) : (scan config f).Ensures fun r =>
    ∀ p, r.plan? = some p → ∃ a b, p.Found f a b := by
  refine ensures_bind fun _ => walk_finds _ _ _ rfl (by simp) fun l hl => ?_
  obtain ⟨i, -, hi⟩ := List.mem_filterMap.1 hl
  exact (LoopForest.mem_of_loop? hi).1

theorem scan_ensures (hw : f.WellFormed e) : (scan config f).Ensures fun r =>
    ∀ p, r.plan? = some p → ∃ a b, p.Accepted f e a b := fun s p hp => by
  obtain ⟨a, b, h⟩ := scan_finds config f s p hp
  exact ⟨a, b, hw, h.first, h.second, h.legal, h.plan⟩

theorem fusePair_ensures {p : FusionPlan} {a b : Loop} (h : p.Accepted f e a b) :
    (fusePair config p f report).Ensures fun r => ∃ report', r = .ok (p.fused f, report') := by
  refine (FusionPlan.fuseChecked_ensures h.wellFormed h.fits h.clean _).bind fun r hr => ?_
  subst hr
  exact ensures_pure ⟨_, rfl⟩

/-- A fusion takes blocks away, so rounds beyond the number of blocks change nothing. -/
theorem rounds_eq (hw : f.WellFormed e) {m n : Nat} (hm : f.layout.length < m)
    (hn : f.layout.length < n) : rounds config m f report = rounds config n f report := by
  induction m generalizing f report n with
  | zero => omega
  | succ m ih =>
    obtain ⟨n, rfl⟩ : ∃ k, n = k + 1 := ⟨n - 1, by omega⟩
    rw [rounds, rounds]
    split
    · rfl
    refine bind_congr fun _ => ?_
    refine (scan_ensures hw).bind_congr fun found hfound => ?_
    cases hplan : found.plan? with
    | none => rfl
    | some p =>
      obtain ⟨a, b, hp⟩ := hfound p hplan
      have hlen := FusionPlan.length_layout_fused hw hp.fits
      refine (fusePair_ensures hp).bind_congr fun r hr => ?_
      obtain ⟨report', rfl⟩ := hr
      have hw' := FusionPlan.wellFormed_fused hw hp.fits hp.clean
      have hrest : rounds config m (p.fused f) report' = rounds config n (p.fused f) report' :=
        ih hw' (by omega) (by omega)
      change (if config.rescan then _ else _) = (if config.rescan then _ else _)
      rw [hrest]

end Pass

end LoopFusion
