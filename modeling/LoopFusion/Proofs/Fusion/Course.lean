import LoopFusion.Proofs.Fusion.FusedForest
import LoopFusion.Proofs.Fusion.Look
import LoopFusion.Proofs.Fusion.Run

/-!
The course of a run: look for a plan, fuse, look again. What the report counts is what happened on
the way, and each fusion costs one loop and three blocks.
-/

namespace LoopFusion

namespace Inquiry

variable {α β : Type} {q : Inquiry α} {g : α → Inquiry β}

/-- No new name is given. -/
def NamesNothing (q : Inquiry α) : Prop := ∀ s, (q s).2.symbols = s.symbols

theorem namesNothing_pure (a : α) : NamesNothing (pure a) := fun _ => rfl

theorem namesNothing_write (level : Level) (origin : Origin) (m : String) :
    (write level origin m).NamesNothing := fun _ => rfl

theorem NamesNothing.bind (hq : q.NamesNothing) (hg : ∀ a, (g a).NamesNothing) :
    (q >>= g).NamesNothing := fun s => (hg _ _).trans (hq s)

end Inquiry

open Inquiry

namespace FusionPlan

variable {p : FusionPlan} {f : Func} {e : BlockId} {a b : Loop}

theorem namesNothing_fuse : (p.fuse f).NamesNothing := by
  unfold fuse
  split
  · exact (namesNothing_write _ _ _).bind fun _ => namesNothing_pure _
  · exact namesNothing_pure _

theorem namesNothing_fuseChecked (verify : Bool) : (p.fuseChecked f verify).NamesNothing := by
  refine namesNothing_fuse.bind fun r => ?_
  cases r with
  | error e => exact namesNothing_pure _
  | ok f' =>
    dsimp only
    split
    · exact namesNothing_pure _
    · exact (namesNothing_write _ _ _).bind fun _ => namesNothing_pure _

end FusionPlan

namespace Pass

variable {config : FusionConfig} {f f' : Func} {e : BlockId} {a b : Loop} {p : FusionPlan}
  {report : FusionReport} {s : Session} {t t' u : SymbolTable} {done fuel : Nat}
  {looks : List (Option FusionPlan)} {pairs : List FusedPair}

/-- The names of the two loops of a plan. -/
def planNames (f : Func) (p : FusionPlan) : FusedPair :=
  ⟨f.blockName p.first.header, f.blockName p.second.header⟩

/-- The ways of a run from a function and a table of names, after `done` fusions: what each look has
found, the pairs that were fused, and what is left in the end. -/
inductive Course (config : FusionConfig) : Nat → Func → SymbolTable → List (Option FusionPlan) →
    List FusedPair → Func → SymbolTable → Prop
  | spent {done : Nat} {f : Func} {t : SymbolTable} : config.exhausted done = true →
    Course config done f t [] [] f t
  | idle {done : Nat} {f : Func} {t u : SymbolTable} : config.exhausted done = false →
    look config f t = (none, u) → Course config done f t [none] [] f u
  | last {done : Nat} {f : Func} {t u : SymbolTable} {p : FusionPlan} :
    config.exhausted done = false → look config f t = (some p, u) → config.rescan = false →
      Course config done f t [some p] [planNames f p] (p.fused f) u
  | more {done : Nat} {f f' : Func} {t u t' : SymbolTable} {p : FusionPlan}
      {looks : List (Option FusionPlan)} {pairs : List FusedPair} :
    config.exhausted done = false → look config f t = (some p, u) → config.rescan = true →
      Course config (done + 1) (p.fused f) u looks pairs f' t' →
        Course config done f t (some p :: looks) (planNames f p :: pairs) f' t'

theorem accepted_of_look (hw : f.WellFormed e) (h : look config f t = (some p, u)) :
    ∃ a b, p.Accepted f e a b :=
  scan_ensures hw (.naming t) p (congrArg Prod.fst h)

/-- The report after the pair of a plan is fused. -/
def entered (report : FusionReport) (f : Func) (p : FusionPlan) : FusionReport :=
  { report with fused := report.fused ++ [planNames f p], changed := true }

theorem fusePair_answers (h : p.Accepted f e a b) : (fusePair config p f report).Ensures fun r =>
    r = .ok (p.fused f, entered report f p) := by
  refine (FusionPlan.fuseChecked_ensures h.wellFormed h.fits h.clean _).bind fun r hr => ?_
  subst hr
  exact ensures_pure rfl

theorem namesNothing_fusePair : (fusePair config p f report).NamesNothing := by
  refine (FusionPlan.namesNothing_fuseChecked _).bind fun r => ?_
  cases r <;> exact namesNothing_pure _

/-! One round. -/

theorem rounds_spent (h : config.exhausted report.fused.length = true) (fuel : Nat) (f : Func)
    (s : Session) :
    (rounds config (fuel + 1) f report s).1 = ⟨.ok report, f⟩ ∧
      (rounds config (fuel + 1) f report s).2.symbols = s.symbols := by
  rw [rounds, if_pos h]
  exact ⟨rfl, rfl⟩

/-- The report after a look, before anything is fused. -/
def noted (report : FusionReport) (found : Scan) : FusionReport :=
  { report with
    rounds := report.rounds + 1
    candidates := report.candidates + found.candidates
    rejected := found.rejected.reverse }

/-- What is done with what a look has found. -/
def proceed (config : FusionConfig) (fuel : Nat) (f : Func) (report : FusionReport) :
    Option FusionPlan → Inquiry Outcome
  | none => do
    trace ("no legal candidate left in " ++ f.name)
    return ⟨.ok report, f⟩
  | some plan => do
    match ← fusePair config plan f report with
    | .error e => return ⟨.error e, f⟩
    | .ok (f', report) =>
      if config.rescan then rounds config fuel f' report else return ⟨.ok report, f'⟩

theorem rounds_look (h : config.exhausted report.fused.length = false) (fuel : Nat) (f : Func)
    (s : Session) :
    ∃ found s', found.plan? = (look config f s.symbols).1 ∧
      s'.symbols = (look config f s.symbols).2 ∧ rounds config (fuel + 1) f report s =
        proceed config fuel f (noted report found) found.plan? s' := by
  let s₀ : Session := { s with log := ⟨.trace, .pass, "scanning " ++ f.name ++ " (round " ++
    toString (report.rounds + 1) ++ ")"⟩ :: s.log }
  obtain ⟨hplan, hsym⟩ := scan_eq_look config f s₀
  refine ⟨(scan config f s₀).1, (scan config f s₀).2, hplan, hsym, ?_⟩
  rw [rounds, if_neg (by simp [h])]
  have hrun : ∀ k : Scan → Inquiry Outcome,
      (do
        trace ("scanning " ++ f.name ++ " (round " ++ toString (report.rounds + 1) ++ ")")
        k (← scan config f) : Inquiry Outcome) s =
      k (scan config f s₀).1 (scan config f s₀).2 := fun _ => rfl
  refine (hrun _).trans ?_
  cases (scan config f s₀).1.plan? <;> rfl

theorem proceed_some (config : FusionConfig) (fuel : Nat) (report : FusionReport)
    (h : p.Accepted f e a b) (s : Session) : ∃ s', s'.symbols = s.symbols ∧
    proceed config fuel f report (some p) s =
      if config.rescan then rounds config fuel (p.fused f) (entered report f p) s'
      else (⟨.ok (entered report f p), p.fused f⟩, s') := by
  refine ⟨(fusePair config p f report s).2, namesNothing_fusePair s, ?_⟩
  have hrun : ∀ k : Except FusionFailure (Func × FusionReport) → Inquiry Outcome,
      (do k (← fusePair config p f report) : Inquiry Outcome) s =
        k (fusePair config p f report s).1 (fusePair config p f report s).2 := fun _ => rfl
  refine (hrun _).trans ?_
  rw [fusePair_answers h s]
  cases config.rescan <;> rfl

/-- The outcome of a run that took this course, told by its report. -/
structure Tells (config : FusionConfig) (report : FusionReport) (f : Func) (t : SymbolTable)
    (o : Outcome × Session) (r : FusionReport) (looks : List (Option FusionPlan))
    (pairs : List FusedPair) : Prop where
  result : o.1.result = .ok r
  course : Course config report.fused.length f t looks pairs o.1.func o.2.symbols
  fused : r.fused = report.fused ++ pairs
  rounds : r.rounds = report.rounds + looks.length
  changed : r.changed = (report.changed || !pairs.isEmpty)

/-- One pair more, in front. -/
theorem Tells.more {found : Scan} {o : Outcome × Session} {r : FusionReport} {u : SymbolTable}
    (hex : config.exhausted report.fused.length = false) (hlook : look config f t = (some p, u))
    (hrescan : config.rescan = true)
    (h : Tells config (entered (noted report found) f p) (p.fused f) u o r looks pairs) :
    Tells config report f t o r (some p :: looks) (planNames f p :: pairs) where
  result := h.result
  course := by
    refine .more hex hlook hrescan ?_
    have hcourse := h.course
    rwa [entered, noted, List.length_append] at hcourse
  fused := by
    rw [h.fused]
    simp [entered, noted]
  rounds := by
    rw [h.rounds]
    simp [entered, noted]
    omega
  changed := by
    rw [h.changed]
    simp [entered]

/-- With rounds enough for its blocks, a function is taken along a course. -/
theorem exists_tells (config : FusionConfig) (hw : f.WellFormed e)
    (hfuel : f.layout.length < fuel) (report : FusionReport) (s : Session) :
    ∃ r looks pairs, Tells config report f s.symbols (rounds config fuel f report s) r looks pairs := by
  induction fuel generalizing f report s with
  | zero => omega
  | succ fuel ih =>
    cases hex : config.exhausted report.fused.length with
    | true =>
      obtain ⟨ho, hsym⟩ := rounds_spent hex fuel f s
      refine ⟨report, [], [], by rw [ho], ?_, by simp, by simp, by simp⟩
      rw [ho, hsym]
      exact .spent hex
    | false =>
      obtain ⟨found, s', hplan, hsym, hrun⟩ := rounds_look hex fuel f s
      rw [hrun]
      cases hfound : found.plan? with
      | none =>
        refine ⟨noted report found, [none], [], rfl, ?_, by simp [noted], rfl, by simp [noted]⟩
        exact .idle hex (Prod.ext (hplan.symm.trans hfound) hsym.symm)
      | some p =>
        have hlook : look config f s.symbols = (some p, s'.symbols) :=
          Prod.ext (hplan.symm.trans hfound) hsym.symm
        obtain ⟨a, b, hp⟩ := accepted_of_look hw hlook
        obtain ⟨s'', hsym', hrun⟩ := proceed_some config fuel (noted report found) hp s'
        rw [hrun]
        cases hrescan : config.rescan with
        | false =>
          refine ⟨entered (noted report found) f p, [some p], [planNames f p], rfl, ?_, rfl, rfl,
            by simp [entered]⟩
          have := Course.last hex hlook hrescan
          rwa [← hsym'] at this
        | true =>
          have hlen := FusionPlan.length_layout_fused hw hp.fits
          obtain ⟨r, looks, pairs, hr⟩ := ih (FusionPlan.wellFormed_fused hw hp.fits hp.clean)
            (by omega) (entered (noted report found) f p) s''
          exact ⟨r, _, _, .more hex hlook hrescan (hsym' ▸ hr)⟩

theorem run_eq (config : FusionConfig) (f : Func) (s : Session) :
    (run config f s).1 = (rounds config (maxRounds f) f (.start f.name) s).1 ∧
    (run config f s).2.symbols = (rounds config (maxRounds f) f (.start f.name) s).2.symbols := by
  have hrun : ∀ k : Outcome → Inquiry Outcome,
      (do k (← rounds config (maxRounds f) f (.start f.name)) : Inquiry Outcome) s =
        k (rounds config (maxRounds f) f (.start f.name) s).1
          (rounds config (maxRounds f) f (.start f.name) s).2 := fun _ => rfl
  rw [run, hrun]
  generalize rounds config (maxRounds f) f (.start f.name) s = o
  obtain ⟨⟨result, func⟩, s'⟩ := o
  cases result with
  | error e => exact ⟨rfl, rfl⟩
  | ok r =>
    dsimp only
    split <;> exact ⟨rfl, rfl⟩

theorem exists_tells_run (config : FusionConfig) (hw : f.WellFormed e) (s : Session) :
    ∃ r looks, Tells config (.start f.name) f s.symbols (run config f s) r looks r.fused := by
  obtain ⟨r, looks, pairs, h⟩ := exists_tells config hw
    (Nat.lt_succ_self f.layout.length) (.start f.name) s
  obtain ⟨ho, hsym⟩ := run_eq config f s
  have hfused : r.fused = pairs := h.fused
  subst hfused
  refine ⟨r, looks, by rw [ho]; exact h.result, ?_, h.fused, h.rounds, h.changed⟩
  rw [ho, hsym]
  exact h.course

/-! What a course costs. -/

namespace Course

theorem wellFormed (h : Course config done f t looks pairs f' t') (hw : f.WellFormed e) :
    f'.WellFormed e := by
  induction h with
  | spent => exact hw
  | idle => exact hw
  | last _ hlook _ =>
    obtain ⟨a, b, hp⟩ := accepted_of_look hw hlook
    exact FusionPlan.wellFormed_fused hw hp.fits hp.clean
  | more _ hlook _ _ ih =>
    obtain ⟨a, b, hp⟩ := accepted_of_look hw hlook
    exact ih (FusionPlan.wellFormed_fused hw hp.fits hp.clean)

end Course

end Pass

end LoopFusion
