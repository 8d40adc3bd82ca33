import LoopFusion.Proofs.Fusion.InPlace

/-!
What is left when a run ends, on any function and whether it ends well or not: the fusions that have
passed the check, and nothing of one that has not.
-/

namespace LoopFusion

open Inquiry

namespace Func.Alike

variable {f f' : Func}

theorem replaceSuccessor (h : Alike f f') (b old new : BlockId) :
    Alike f (f'.replaceSuccessor b old new).2 := h.trans (alike_replaceSuccessor f' b old new)

theorem replacePhiIncomingBlock (h : Alike f f') (b old new : BlockId) :
    Alike f (f'.replacePhiIncomingBlock b old new) :=
  h.trans (alike_replacePhiIncomingBlock f' b old new)

theorem foldl {γ : Type} {g : Func → γ → Func} (hg : ∀ f x, Alike f (g f x)) (l : List γ)
    (h : Alike f f') : Alike f (l.foldl g f') := by
  induction l generalizing f' with
  | nil => exact h
  | cons x l ih => exact ih (h.trans (hg f' x))

end Func.Alike

namespace FusionPlan

variable {p : FusionPlan} {f : Func} {a b : Loop} {x : BlockId}

theorem alike_chainBodies (p : FusionPlan) (f : Func) : Func.Alike f (p.chainBodies f) :=
  ((((((Func.Alike.refl f).replaceSuccessor _ _ _).trans
    (Func.alike_setTerminator _ _ _ rfl)).replaceSuccessor _ _ _).replacePhiIncomingBlock _ _
      _).replaceSuccessor _ _ _).replacePhiIncomingBlock _ _ _

theorem alike_redirect (p : FusionPlan) (f : Func) : Func.Alike f (p.redirect f) := by
  have hsent := Func.alike_replaceSuccessors f p.redirected p.second.entry p.second.exit
  rw [redirect]
  split
  case h_1 guard _ => exact hsent.foldl (fun f t => Func.alike_modifyPhis f t _) p.bypassTargets
  case h_2 => exact hsent

theorem layout_rewrittenOps (p : FusionPlan) (f : Func) : (p.rewrittenOps f).layout = f.layout :=
  (((Func.alike_replaceAllUses f _ _).trans (alike_chainBodies p _)).trans
    (alike_redirect p _)).layout

theorem Found.header_mem (h : p.Found f a b) : p.second.header ∈ f.layout := by
  obtain ⟨keep, s, s', hlegal⟩ := h.legal
  have hexiting := hlegal.second.exiting
  rw [LoopForest.exiting_eq h.second] at hexiting
  have hmem : b.header ∈ b.region.exiting (Cfg.ofFunc f) := hexiting ▸ List.mem_singleton_self _
  rw [h.plan.second.header]
  exact LoopForest.blocks_subset h.second (List.mem_filter.1 hmem).1

theorem Found.mem_layout_fused (h : p.Found f a b) (hx : x ∈ (p.fused f).layout) :
    x ∈ f.layout ∧ x ≠ p.second.header := by
  let rest := (p.retired.foldl Func.removeBlock (p.rewrittenOps f)).layout.filter fun c =>
    !p.secondBody.contains c
  change x ∈ rest.takeWhile (· ≠ p.first.latch) ++ p.secondBody ++
    rest.dropWhile (· ≠ p.first.latch) at hx
  have hcases : x ∈ p.secondBody ∨ x ∈ rest := by
    rw [List.append_assoc, List.mem_append, List.mem_append] at hx
    rcases hx with hx | hx | hx
    · exact .inr ((List.takeWhile_sublist _).mem hx)
    · exact .inl hx
    · exact .inr ((List.dropWhile_sublist _).mem hx)
  rcases hcases with hx | hx
  · rw [h.plan.secondBody] at hx
    obtain ⟨hmem, hne⟩ := List.mem_filter.1 hx
    rw [h.plan.second.header]
    exact ⟨LoopForest.blocks_subset h.second hmem, (by simpa using hne : x ≠ b.header ∧ _).1⟩
  · have hleft := (List.mem_filter.1 hx).1
    rw [(Func.retired_removeBlocks _ _).layout, layout_rewrittenOps, List.mem_filter] at hleft
    refine ⟨hleft.1, ?_⟩
    rintro rfl
    have : p.second.header ∈ p.retired := by
      rw [h.plan.retired]
      simp [retiredOf]
    simp [this] at hleft

theorem Found.length_layout_lt (h : p.Found f a b) (hv : (p.fused f).verify = .ok ()) :
    (p.fused f).layout.length < f.layout.length := by
  obtain ⟨e, hw⟩ := Func.wellFormed_of_verify hv
  have hsub : (p.fused f).layout ⊆ f.layout.filter (· ≠ p.second.header) := fun x hx => by
    have := h.mem_layout_fused hx
    simpa using this
  have hle := (hw.nodup.subperm hsub).length_le
  have hlt : (f.layout.filter (· ≠ p.second.header)).length < f.layout.length :=
    List.length_filter_lt_length_iff_exists.2 ⟨_, h.header_mem, by simp⟩
  omega

end FusionPlan

namespace Pass

variable {config : FusionConfig} {f f' f₁ : Func} {p : FusionPlan} {report : FusionReport}
  {s : Session} {t t' u : SymbolTable} {done fuel : Nat} {pairs : List FusedPair}

/-- Rounds that went through, after `done` others: each look has found a plan, and what the plan makes
of the function has passed the check. -/
inductive Completed (config : FusionConfig) : Nat → Func → SymbolTable → List FusedPair →
    Func → SymbolTable → Prop
  | none {done : Nat} {f : Func} {t : SymbolTable} : Completed config done f t [] f t
  | round {done : Nat} {f f₁ f' : Func} {t u t' : SymbolTable} {p : FusionPlan}
      {pairs : List FusedPair} : config.exhausted done = false → look config f t = (some p, u) →
    p.checked f config.verify = .ok f₁ → Completed config (done + 1) f₁ u pairs f' t' →
      Completed config done f t (planNames f p :: pairs) f' t'

theorem checked_eq_ok (hv : config.verify = true) (h : p.checked f config.verify = .ok f') :
    f' = p.fused f ∧ f'.verify = .ok () := by
  rw [FusionPlan.checked, hv, if_pos rfl] at h
  split at h
  · split at h
    · obtain rfl := Except.ok.inj h
      exact ⟨rfl, ‹_›⟩
    · cases h
  · cases h

theorem Completed.verified (hv : config.verify = true)
    (h : Completed config done f t pairs f' t') : f' = f ∨ f'.verify = .ok () := by
  induction h with
  | none => exact .inl rfl
  | round _ _ hchecked _ ih =>
    rcases ih with rfl | h
    · exact .inr (checked_eq_ok hv hchecked).2
    · exact .inr h

theorem fusePair_eq (config : FusionConfig) (p : FusionPlan) (f : Func) (report : FusionReport) :
    (fusePair config p f report).Ensures fun r =>
      (∃ f', p.checked f config.verify = .ok f' ∧
        r = .ok (f', entered report f p)) ∨
      ∃ e context, p.checked f config.verify = .error e ∧ r = .error ⟨[context], e⟩ := by
  refine (FusionPlan.fuseChecked_answers p f config.verify).bind fun r hr => ?_
  subst hr
  cases p.checked f config.verify with
  | ok f' => exact ensures_pure (.inl ⟨f', rfl, rfl⟩)
  | error e => exact ensures_pure (.inr ⟨e, _, rfl, rfl⟩)

/-- How rounds end: well, or with a plan for what is left that cannot be carried out. -/
inductive Ending (config : FusionConfig) (report : FusionReport) (pairs : List FusedPair) :
    Outcome → SymbolTable → Prop
  | well {o : Outcome} {t : SymbolTable} {r : FusionReport} : o.result = .ok r →
    r.fused = report.fused ++ pairs → Ending config report pairs o t
  | failed {o : Outcome} {t u : SymbolTable} {e : FusionFailure} {p : FusionPlan} :
    o.result = .error e → config.exhausted (report.fused.length + pairs.length) = false →
      look config o.func t = (some p, u) → p.checked o.func config.verify = .error e.error →
        Ending config report pairs o t

theorem Ending.entered {o : Outcome} {found : Scan}
    (h : Ending config (entered (noted report found) f p) pairs o t) :
    Ending config report (planNames f p :: pairs) o t := by
  cases h with
  | well hr hfused => exact .well hr (hfused.trans (by simp [Pass.entered, noted]))
  | failed hr hex hlook herr =>
    refine .failed hr ?_ hlook herr
    rwa [Pass.entered, noted, List.length_append, List.length_singleton, Nat.add_assoc,
      Nat.add_comm 1] at hex

theorem exists_completed (config : FusionConfig) (fuel : Nat) (f : Func) (report : FusionReport)
    (s : Session) : ∃ pairs t, Completed config report.fused.length f s.symbols pairs
      (rounds config fuel f report s).1.func t ∧
      Ending config report pairs (rounds config fuel f report s).1 t := by
  induction fuel generalizing f report s with
  | zero => exact ⟨[], s.symbols, .none, .well rfl (List.append_nil _).symm⟩
  | succ fuel ih =>
    cases hex : config.exhausted report.fused.length with
    | true =>
      rw [(rounds_spent hex fuel f s).1]
      exact ⟨[], s.symbols, .none, .well rfl (List.append_nil _).symm⟩
    | false =>
      obtain ⟨found, s', hplan, hsym, hrun⟩ := rounds_look hex fuel f s
      rw [hrun]
      cases hfound : found.plan? with
      | none => exact ⟨[], s.symbols, .none, .well rfl (List.append_nil _).symm⟩
      | some p =>
        have hlook : look config f s.symbols = (some p, s'.symbols) :=
          Prod.ext (hplan.symm.trans hfound) hsym.symm
        have hproceed : ∀ k : Except FusionFailure (Func × FusionReport) → Inquiry Outcome,
            (do k (← fusePair config p f (noted report found)) : Inquiry Outcome) s' =
              k (fusePair config p f (noted report found) s').1
                (fusePair config p f (noted report found) s').2 := fun _ => rfl
        rw [proceed, hproceed]
        have hnames : (fusePair config p f (noted report found)).NamesNothing :=
          namesNothing_fusePair
        rcases fusePair_eq config p f (noted report found) s' with ⟨f₁, hok, hr⟩ | ⟨e, c, herr, hr⟩
        · rw [hr]
          dsimp only
          cases config.rescan with
          | false =>
            exact ⟨[planNames f p], _, .round hex hlook hok .none, .well rfl rfl⟩
          | true =>
            obtain ⟨pairs, t, hrest, hend⟩ := ih f₁ (entered (noted report found) f p)
              (fusePair config p f (noted report found) s').2
            rw [hnames s', Pass.entered, noted, List.length_append] at hrest
            exact ⟨_, t, .round hex hlook hok hrest, hend.entered⟩
        · rw [hr]
          exact ⟨[], s.symbols, .none, .failed rfl (by simpa using hex) hlook herr⟩

/-- With verification, the first fusion leads to a verified function of fewer blocks, so rounds beyond
the number of blocks change nothing. -/
theorem rounds_eq_of_verify (hv : config.verify = true) {m n : Nat} (hm : f.layout.length < m)
    (hn : f.layout.length < n) : rounds config m f report = rounds config n f report := by
  obtain ⟨m, rfl⟩ : ∃ k, m = k + 1 := ⟨m - 1, by omega⟩
  obtain ⟨n, rfl⟩ : ∃ k, n = k + 1 := ⟨n - 1, by omega⟩
  rw [rounds, rounds]
  split
  · rfl
  refine bind_congr fun _ => (scan_finds config f).bind_congr fun found hfound => ?_
  cases hplan : found.plan? with
  | none => rfl
  | some p =>
    obtain ⟨a, b, hp⟩ := hfound p hplan
    refine (fusePair_eq config p f _).bind_congr fun r hr => ?_
    rcases hr with ⟨f₁, hok, rfl⟩ | ⟨e, c, -, rfl⟩
    · obtain ⟨rfl, hverify⟩ := checked_eq_ok hv hok
      obtain ⟨e, hw⟩ := Func.wellFormed_of_verify hverify
      have hlt := hp.length_layout_lt hverify
      dsimp only
      rw [rounds_eq hw (m := m) (n := n) (by omega) (by omega)]
    · rfl

/-- A run on `f` that ends well leaves `f'`. -/
def EndsWell (config : FusionConfig) (f f' : Func) : Prop :=
  ∃ s r, (run config f s).1 = ⟨.ok r, f'⟩

theorem runAll_cons (config : FusionConfig) (f : Func) (fs : List Func) (s : Session) :
    (runAll config (f :: fs) s).1 = match (run config f s).1.result with
      | .error e => (.error (e.within ("in function " ++ f.name)), (run config f s).1.func :: fs)
      | .ok report => ((runAll config fs (run config f s).2).1.1.map (report :: ·),
          (run config f s).1.func :: (runAll config fs (run config f s).2).1.2) := by
  have hrun : ∀ k : Outcome → Inquiry (Except FusionFailure (List FusionReport) × List Func),
      (do k (← run config f) : Inquiry _) s = k (run config f s).1 (run config f s).2 :=
    fun _ => rfl
  rw [runAll, hrun]
  cases (run config f s).1.result <;> rfl

/-- Where a list of functions is left by a failure: the run on one of them has failed, those before it
had ended well, and there were none on those after it. -/
theorem runAll_of_error {fs : List Func} {e : FusionFailure}
    (h : (runAll config fs s).1.1 = .error e) : ∃ before g after before' s' e',
      fs = before ++ g :: after ∧ List.Forall₂ (EndsWell config) before before' ∧
      (runAll config fs s).1.2 = before' ++ (run config g s').1.func :: after ∧
      (run config g s').1.result = .error e' ∧ e = e'.within ("in function " ++ g.name) := by
  induction fs generalizing s e with
  | nil => cases h
  | cons f fs ih =>
    rw [runAll_cons] at h ⊢
    cases hres : (run config f s).1.result with
    | error e' =>
      rw [hres] at h
      exact ⟨[], f, fs, [], s, e', rfl, .nil, rfl, hres, (Except.error.inj h).symm⟩
    | ok report =>
      rw [hres] at h
      cases hrest : (runAll config fs (run config f s).2).1.1 with
      | ok reports =>
        dsimp only at h
        rw [hrest] at h
        cases h
      | error e₁ =>
        dsimp only at h ⊢
        rw [hrest] at h
        obtain rfl := Except.error.inj h
        obtain ⟨before, g, after, before', s', e', rfl, hall, hfs, hres', he⟩ := ih hrest
        exact ⟨f :: before, g, after, (run config f s).1.func :: before', s', e', rfl,
          .cons ⟨s, report, by rw [← hres]⟩ hall, congrArg ((run config f s).1.func :: ·) hfs,
          hres', he⟩

end Pass

open Build in
/-- The result is a value of the second loop, which may not have run. -/
def Func.strayResult : Func := .build "f" do
  let a ← param "A" .ptr
  let b ← param "B" .ptr
  discard <| countedLoop "x" (.const 0) (.const 4) 1 fun i => do
    discard <| emit (.store (← value (.gep a i)) (.const 7))
  discard <| countedLoop "y" (.const 0) (.const 4) 1 fun j => do
    discard <| emit (.store (← value (.gep b j)) (.const 8))
  discard <| emit (.ret (some (.inst ⟨12⟩)))

namespace Pass

open InPlace

/-- A failure never leaves a function half edited, whether or not it was well formed. Edit by edit,
fusing with a check, a run and a run on several functions end as the definitions that make new
functions of old ones. A failed fusion leaves the function that it was given. A run leaves either
that function or one that passes verification, namely what the completed rounds have made of it, and
the rounds allowed are always enough. After a failure, later functions are as they were. -/
theorem failure_atomic (config : FusionConfig) (hv : config.verify = true) :
    (∀ (p : FusionPlan) (f : Func),
      (p.fuseCheckedInPlace true).exec f = settle f <$> p.fuseChecked f true ∧
      ∀ s e, ((p.fuseCheckedInPlace true).exec f s).1.1 = .error e →
        ((p.fuseCheckedInPlace true).exec f s).1.2 = f) ∧
    (∀ f : Func, (runInPlace config).exec f = Outcome.split <$> run config f ∧
      (∀ n, maxRounds f ≤ n →
        rounds config n f (.start f.name) = rounds config (maxRounds f) f (.start f.name)) ∧
      ∀ s, ((run config f s).1.func = f ∨ (run config f s).1.func.verify = .ok ()) ∧
        ∃ pairs t, Completed config 0 f s.symbols pairs (run config f s).1.func t ∧
          Ending config (.start f.name) pairs (run config f s).1 t) ∧
    ∀ fs : List Func,
      (sweepInPlace config (List.range fs.length)).exec fs = runAll config fs ∧
      ∀ s e, (runAll config fs s).1.1 = .error e → ∃ before g after before' s' e',
        fs = before ++ g :: after ∧ List.Forall₂ (EndsWell config) before before' ∧
        (runAll config fs s).1.2 = before' ++ (run config g s').1.func :: after ∧
        (run config g s').1.result = .error e' ∧ e = e'.within ("in function " ++ g.name) := by
  refine ⟨fun p f => ⟨p.exec_fuseCheckedInPlace true f, fun s e h => ?_⟩, fun f => ⟨exec_runInPlace
    config f, fun n hn => rounds_eq_of_verify hv hn (Nat.lt_succ_self _), fun s => ?_⟩,
    fun fs => ⟨?_, fun s e h => runAll_of_error h⟩⟩
  · have hexec : ((p.fuseCheckedInPlace true).exec f s).1 = settle f (p.fuseChecked f true s).1 := by
      rw [p.exec_fuseCheckedInPlace true f]
      rfl
    rw [hexec] at h ⊢
    cases hr : (p.fuseChecked f true s).1 with
    | ok f' =>
      rw [hr] at h
      cases h
    | error e => rfl
  · obtain ⟨pairs, t, hdone, hend⟩ := exists_completed config (maxRounds f) f (.start f.name) s
    rw [(run_eq config f s).1]
    exact ⟨hdone.verified hv, pairs, t, hdone, hend⟩
  · have h := exec_sweepInPlace config [] fs
    rw [List.nil_append, List.length_nil, ← List.range_eq_range'] at h
    rw [h]
    exact id_map _

/-- The two loops can be fused, but the function does not pass verification, before or after. -/
theorem failure_atomic_strayResult : FusionConfig.standard.verify = true ∧
    (run .standard Func.strayResult .start).1.result.isOk = false ∧
    (run .standard Func.strayResult .start).1.func = Func.strayResult := by
  refine ⟨rfl, by decide +kernel, ?_⟩
  obtain ⟨h, -⟩ := ((failure_atomic .standard rfl).2.1 Func.strayResult).2.2 .start
  refine h.resolve_right fun hok => ?_
  have hbad : (run .standard Func.strayResult .start).1.func.verify.isOk = false := by
    decide +kernel
  rw [hok] at hbad
  cases hbad

end Pass

end LoopFusion
