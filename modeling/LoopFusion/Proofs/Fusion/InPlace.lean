import LoopFusion.Proofs.Fusion.Course

/-!
Fusion edit by edit. The function is a state that each step changes for good; a failure leaves it as
it is then. The test that a plan still applies comes before the first edit, and the copy that is put
back when the check fails is that of the same fusion, so nothing half done is ever left behind: the
steps end as the definitions that make a new function of an old one.
-/

namespace LoopFusion

open Inquiry

/-- A computation that changes something in place. What it has done stays done when it fails. -/
abbrev InPlace (σ ε α : Type) := ExceptT ε (StateT σ Inquiry) α

namespace InPlace

variable {σ ε ε' α β : Type}

def ask (q : Inquiry α) : InPlace σ ε α := ExceptT.lift (StateT.lift q)

def edit (g : σ → σ) : InPlace σ ε Unit := modify g

/-- How the computation ends, and what it leaves. -/
def exec (m : InPlace σ ε α) (x : σ) : Inquiry (Except ε α × σ) := m.run.run x

/-- Report a failure as another one. -/
def failingAs (g : ε → ε') (m : InPlace σ ε α) : InPlace σ ε' α := ExceptT.adapt g m

/-- The end of a computation that makes something new, or fails and leaves what was there. -/
def settle (x : σ) : Except ε σ → Except ε Unit × σ
  | .ok y => (.ok (), y)
  | .error e => (.error e, x)

theorem exec_bind (m : InPlace σ ε α) (k : α → InPlace σ ε β) (x : σ) :
    (m >>= k).exec x = m.exec x >>= fun
      | (.ok a, y) => (k a).exec y
      | (.error e, y) => pure (.error e, y) := by
  funext s
  change ExceptT.bind m k x s = _
  simp only [ExceptT.bind, ExceptT.mk, exec, ExceptT.run, StateT.run, bind, StateT.bind]
  rcases m x s with ⟨⟨_ | _, y⟩, s'⟩ <;> rfl

theorem exec_get_bind (k : σ → InPlace σ ε β) (x : σ) : (get >>= k).exec x = (k x).exec x := rfl

theorem exec_modifyGet_bind (g : σ → α × σ) (k : α → InPlace σ ε β) (x : σ) :
    (modifyGet g >>= k).exec x = (k (g x).1).exec (g x).2 := rfl

theorem exec_edit_bind (g : σ → σ) (k : Unit → InPlace σ ε β) (x : σ) :
    (edit g >>= k).exec x = (k ()).exec (g x) := rfl

theorem exec_ask_bind (q : Inquiry α) (k : α → InPlace σ ε β) (x : σ) :
    (ask q >>= k).exec x = q >>= fun a => (k a).exec x := rfl

theorem exec_edits_bind {γ : Type} (l : List γ) (g : γ → σ → σ) (k : Unit → InPlace σ ε β)
    (x : σ) : ((l.forM fun c => edit (g c)) >>= k).exec x =
      (k ()).exec (l.foldl (fun x c => g c x) x) := by
  induction l generalizing x with
  | nil => rfl
  | cons c l ih => exact ih (g c x)

theorem exec_failingAs (g : ε → ε') (m : InPlace σ ε α) (x : σ) : (failingAs g m).exec x =
    (fun r => (r.1.mapError g, r.2)) <$> m.exec x := rfl

end InPlace

open InPlace

namespace FusionPlan

variable {p : FusionPlan} {f : Func}

/-- Fuse by one edit after the other. -/
def fuseInPlace (p : FusionPlan) : InPlace Func FusionError Unit := do
  let (a, b) := (p.first, p.second)
  if p.applies (← get) then
    let n ← modifyGet fun f => f.replaceAllUses (.inst b.iv) (.inst a.iv)
    let f ← get
    ask (Inquiry.write .debug .fusion ("replaced " ++ toString n ++ " uses of " ++
      f.valueName (.inst b.iv) ++ " with " ++ f.valueName (.inst a.iv)))
    edit fun f => (f.replaceSuccessor a.header b.entry b.exit).2
    edit fun f => (f.setTerminator b.header (.br b.latch)).2
    edit fun f => (f.replaceSuccessor a.bodyTail a.latch b.bodyHead).2
    edit fun f => f.replacePhiIncomingBlock b.bodyHead b.header a.bodyTail
    edit fun f => (f.replaceSuccessor b.bodyTail b.latch a.latch).2
    edit fun f => f.replacePhiIncomingBlock a.latch a.bodyTail b.bodyTail
    p.redirected.forM fun pred => edit fun f => (f.replaceSuccessor pred b.entry b.exit).2
    if let some guard := b.guard? then
      p.bypassTargets.forM fun t => edit fun f => f.removePhiIncoming t guard
    p.retired.forM fun r => edit fun f => f.removeBlock r
    edit fun f => f.moveBlocksBefore p.secondBody a.latch
  else throw .stale

/-- Fuse, check if asked to, and put back what was there if the check fails. -/
def fuseCheckedInPlace (p : FusionPlan) (verify : Bool) : InPlace Func FusionError Unit := do
  let before ← get
  p.fuseInPlace
  let f ← get
  if verify then
    if let .error v := f.verify then
      set before
      throw (.broken v.message)
  ask (Inquiry.write .info .fusion ("fused loop " ++ f.blockName p.second.header ++
    " into loop " ++ f.blockName p.first.header ++ " in " ++ f.name))

theorem valueName_replaceAllUses (f : Func) (old new : Value) (i : InstId) :
    (f.replaceAllUses old new).2.valueName (.inst i) = f.valueName (.inst i) := by
  have hlabel : ∀ g : Func, (g.inst? i).bind (·.name) = ((g.inst? i).map (·.name)).join := by
    intro g
    cases g.inst? i <;> rfl
  rw [Func.valueName, Func.valueName, hlabel, hlabel, (Func.alike_replaceAllUses f old new).label]

theorem exec_fuseInPlace (p : FusionPlan) (f : Func) :
    p.fuseInPlace.exec f = settle f <$> p.fuse f := by
  rw [fuseInPlace, exec_get_bind, fuse]
  split
  case isFalse => rfl
  case isTrue =>
    dsimp only
    rw [exec_modifyGet_bind, exec_get_bind, exec_ask_bind, valueName_replaceAllUses,
      valueName_replaceAllUses, map_bind]
    refine bind_congr fun _ => ?_
    simp only [exec_edit_bind, exec_edits_bind]
    rw [show (p.rewired f).2 = p.settleLayout (p.redirect (p.chainBodies (f.replaceAllUses
      (.inst p.second.iv) (.inst p.first.iv)).2)) from rfl, settleLayout, redirect]
    cases p.second.guard? with
    | none =>
      simp only [exec_edits_bind]
      rfl
    | some guard =>
      simp only [exec_edits_bind]
      rfl

/-- What the edits come to when the result is checked. -/
def checked (p : FusionPlan) (f : Func) (verify : Bool) : Except FusionError Func :=
  if p.applies f then
    match if verify then (p.fused f).verify else .ok () with
    | .ok () => .ok (p.fused f)
    | .error v => .error (.broken v.message)
  else .error .stale

theorem fuse_answers : (p.fuse f).Ensures fun r =>
    r = if p.applies f then .ok (p.fused f) else .error .stale := by
  unfold fuse
  split
  · exact ensures_bind fun _ => ensures_pure rfl
  · exact ensures_pure rfl

theorem fuseChecked_answers (p : FusionPlan) (f : Func) (verify : Bool) :
    (p.fuseChecked f verify).Ensures (· = p.checked f verify) := by
  refine fuse_answers.bind fun r hr => ?_
  subst hr
  rw [checked]
  cases p.applies f with
  | false => exact ensures_pure rfl
  | true =>
    cases hv : if verify then (p.fused f).verify else .ok () with
    | error v =>
      simp only [hv, if_true]
      exact ensures_pure rfl
    | ok u =>
      simp only [hv, if_true]
      exact ensures_bind fun _ => ensures_pure rfl

theorem exec_fuseCheckedInPlace (p : FusionPlan) (verify : Bool) (f : Func) :
    (p.fuseCheckedInPlace verify).exec f = settle f <$> p.fuseChecked f verify := by
  rw [fuseCheckedInPlace, exec_get_bind, exec_bind, exec_fuseInPlace, fuseChecked, map_bind,
    bind_map_left]
  refine bind_congr fun r => ?_
  cases r with
  | error e => rfl
  | ok f' =>
    change (InPlace.exec (get >>= _) f') = _
    rw [exec_get_bind]
    cases verify with
    | false => rfl
    | true =>
      dsimp only
      simp only [if_true]
      cases hv : f'.verify with
      | error v => rfl
      | ok u => rfl

end FusionPlan

namespace Pass

variable {config : FusionConfig} {f : Func}

/-- Rounds of scanning and fusing, on a function that is changed in place. -/
def roundsInPlace (config : FusionConfig) :
    Nat → FusionReport → InPlace Func FusionFailure FusionReport
  | 0, report => return report
  | fuel + 1, report => do
    let f ← get
    if config.exhausted report.fused.length then
      ask (trace ("fusion budget exhausted after " ++ toString report.fused.length ++ " fusions"))
      return report
    else
      let round := report.rounds + 1
      ask (trace ("scanning " ++ f.name ++ " (round " ++ toString round ++ ")"))
      let found ← ask (scan config f)
      let report := { report with
        rounds := round
        candidates := report.candidates + found.candidates
        rejected := found.rejected.reverse }
      match found.plan? with
      | none =>
        ask (trace ("no legal candidate left in " ++ f.name))
        return report
      | some plan =>
        let pair : FusedPair := ⟨f.blockName plan.first.header, f.blockName plan.second.header⟩
        failingAs (⟨["fusing " ++ pair.second ++ " into " ++ pair.first ++ " in " ++ f.name], ·⟩)
          (plan.fuseCheckedInPlace config.verify)
        let report := { report with fused := report.fused ++ [pair], changed := true }
        if config.rescan then roundsInPlace config fuel report else return report

def runInPlace (config : FusionConfig) : InPlace Func FusionFailure FusionReport := do
  let f ← get
  let report ← roundsInPlace config (maxRounds f) (.start f.name)
  let f ← get
  if report.candidates = 0 then
    ask (Inquiry.write .debug .pass ("no fusion candidates in " ++ f.name))
  return report

/-- The outcome as a result beside what has become of the function. -/
def Outcome.split (o : Outcome) : Except FusionFailure FusionReport × Func := (o.result, o.func)

theorem exec_roundsInPlace (fuel : Nat) (report : FusionReport) (f : Func) :
    (roundsInPlace config fuel report).exec f = Outcome.split <$> rounds config fuel f report := by
  induction fuel generalizing report f with
  | zero => rfl
  | succ fuel ih =>
    rw [roundsInPlace, exec_get_bind, rounds]
    split
    case isTrue => rfl
    case isFalse =>
      dsimp only
      rw [exec_ask_bind, map_bind]
      refine bind_congr fun _ => ?_
      rw [exec_ask_bind, map_bind]
      refine bind_congr fun found => ?_
      cases found.plan? with
      | none => rfl
      | some plan =>
        dsimp only
        rw [exec_bind, exec_failingAs, FusionPlan.exec_fuseCheckedInPlace,
          fusePair, bind_map_left,
          bind_map_left, map_bind, bind_assoc]
        refine bind_congr fun r => ?_
        cases r with
        | error e => rfl
        | ok f' =>
          rw [pure_bind]
          dsimp only [settle, Except.mapError]
          cases config.rescan with
          | false => rfl
          | true => exact ih _ f'

theorem exec_runInPlace (config : FusionConfig) (f : Func) :
    (runInPlace config).exec f = Outcome.split <$> run config f := by
  rw [runInPlace, exec_get_bind, exec_bind, exec_roundsInPlace, run, bind_map_left, map_bind]
  refine bind_congr fun o => ?_
  obtain ⟨r, f'⟩ := o
  cases r with
  | error e => rfl
  | ok report =>
    dsimp only [Outcome.split]
    rw [exec_get_bind]
    split <;> rfl

/-- Run on the functions with these numbers, one after the other, each in its place. A failure is the
end. -/
def sweepInPlace (config : FusionConfig) : List Nat →
    InPlace (List Func) FusionFailure (List FusionReport)
  | [] => return []
  | k :: ks => do
    match (← get)[k]? with
    | none => sweepInPlace config ks
    | some f =>
      let (result, f') ← ask ((runInPlace config).exec f)
      edit fun fs => fs.set k f'
      match result with
      | .error e => throw (e.within ("in function " ++ f.name))
      | .ok report => return report :: (← sweepInPlace config ks)

theorem exec_sweepInPlace_cons {fs : List Func} {k : Nat} (h : fs[k]? = some f) (ks : List Nat) :
    (sweepInPlace config (k :: ks)).exec fs = (do
      let outcome ← run config f
      match outcome.result with
      | .error e => return (.error (e.within ("in function " ++ f.name)), fs.set k outcome.func)
      | .ok report =>
        let (reports, fs) ← (sweepInPlace config ks).exec (fs.set k outcome.func)
        return (reports.map (report :: ·), fs)) := by
  rw [sweepInPlace, exec_get_bind, h]
  dsimp only
  rw [exec_ask_bind, exec_runInPlace, bind_map_left]
  refine bind_congr fun o => ?_
  rw [exec_edit_bind]
  dsimp only [Outcome.split]
  cases o.result with
  | error e => rfl
  | ok report =>
    dsimp only
    rw [exec_bind]
    refine bind_congr fun r => ?_
    obtain ⟨r, fs'⟩ := r
    cases r <;> rfl

theorem exec_sweepInPlace (config : FusionConfig) (before fs : List Func) :
    (sweepInPlace config (List.range' before.length fs.length)).exec (before ++ fs) =
      (fun x => (x.1, before ++ x.2)) <$> runAll config fs := by
  induction fs generalizing before with
  | nil => rfl
  | cons f fs ih =>
    have hget : (before ++ f :: fs)[before.length]? = some f := by simp
    rw [List.length_cons, List.range'_succ, exec_sweepInPlace_cons hget, runAll, map_bind]
    refine bind_congr fun o => ?_
    have hset : (before ++ f :: fs).set before.length o.func = (before ++ [o.func]) ++ fs := by
      simp
    cases hr : o.result with
    | error e =>
      dsimp only
      rw [hset, List.append_assoc]
      rfl
    | ok report =>
      dsimp only
      have hlen : before.length + 1 = (before ++ [o.func]).length := by simp
      rw [hset, hlen, ih, bind_map_left, map_bind]
      refine bind_congr fun x => ?_
      rw [List.append_assoc]
      rfl

end Pass

end LoopFusion
