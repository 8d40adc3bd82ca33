import LoopFusion.Fusion.Pass
import LoopFusion.Proofs.Memory.Subscripts
import LoopFusion.Proofs.Symbolic.Likeness

/-!
One pair of loops judged in two sessions. When the sessions agree on how values evolve, up to what
corresponds to a polynomial, they agree on every check, and so on every scan.
-/

namespace LoopFusion

open Inquiry

variable {f : Func} {A : Accord} {R : Poly → Poly → Prop} {wording : Prop}

/-- What two sessions have to agree on for their verdicts on loops of `f` to agree. -/
structure Concord (f : Func) (A : Accord) (R : Poly → Poly → Prop) (wording : Prop) : Prop where
  poly : Poly.Congruence R
  evolution : ∀ v scope, Alongside A (Evolution.Alike R)
    ((Engine.ofFunc f f.forest).evolution v scope) ((Engine.ofFunc f f.forest).evolution v scope)
  param : ∀ k, Alongside A R (f.unknown (.param k)) (f.unknown (.param k))
  text : wording → ∀ {p p'}, R p p' → ∀ s s', A.rel s s' →
    p.text s.symbols.name = p'.text s'.symbols.name

/-- Equal descriptions make for verdicts that differ at most in their wording. -/
theorem Concord.of_eq {A : Accord} {wording : Prop}
    (hvalue : ∀ v scope, Alongside A (· = ·) ((Engine.ofFunc f f.forest).evolution v scope)
      ((Engine.ofFunc f f.forest).evolution v scope))
    (hunknown : ∀ v, Alongside A (· = ·) (f.unknown v) (f.unknown v))
    (htext : wording → ∀ s s', A.rel s s' → s.symbols = s'.symbols) :
    Concord f A (· = ·) wording where
  poly := Poly.congruence_eq
  evolution v scope := (hvalue v scope).mono fun x _ h => h ▸ .refl x
  param _ := hunknown _
  text := by
    rintro hw p _ rfl s s' hrel
    rw [htext hw s s' hrel]

namespace Poly.Congruence

variable {p p' q q' : Poly}

theorem isNonZero (hR : Congruence R) (h : R p p') : p.isNonZero = p'.isNonZero := by
  rw [Poly.isNonZero, Poly.isNonZero, hR.const? h]

theorem zero (hR : Congruence R) : R .zero .zero := hR.const 0

theorem bind_const? (hR : Congruence R) {x x' : Option Poly} (h : Option.Rel R x x') :
    x.bind Poly.const? = x'.bind Poly.const? := by
  cases h with
  | none => rfl
  | some h => exact hR.const? h

theorem proves (hR : Congruence R) (test : Comparison) (hp : R p p') (hq : R q q') :
    Poly.proves test p q = Poly.proves test p' q' := by
  rw [Poly.proves, Poly.proves, hR.bind_const? (hR.sub? hp hq)]

end Poly.Congruence

/-! Addresses. -/

/-- Corresponding starts and corresponding strides. -/
def AffineAccess.Alike (R : Poly → Poly → Prop) (a a' : AffineAccess) : Prop :=
  R a.start a'.start ∧ R a.stride a'.stride

theorem AffineAccess.eq_of_alike {x x' : Option AffineAccess}
    (h : Option.Rel (AffineAccess.Alike (· = ·)) x x') : x = x' := by
  cases h with
  | none => rfl
  | @some a a' h =>
    cases a
    cases a'
    obtain ⟨rfl, rfl⟩ := h
    rfl

structure Subscript.Alike (R : Poly → Poly → Prop) (s s' : Subscript) : Prop where
  start : R s.start s'.start
  stride : R s.stride s'.stride
  last? : s.last? = s'.last?

theorem Subscript.Alike.conflict {s s' d d' : Subscript} (hR : Poly.Congruence R)
    (hs : s.Alike R s') (hd : d.Alike R d') : s.conflict d = s'.conflict d' := by
  unfold Subscript.conflict
  rw [hR.bind_const? (hR.sub? hd.start hs.start), hR.const? hs.stride, hR.const? hd.stride,
    hs.last?, hd.last?]

theorem Subscript.parts?_alike (hR : Poly.Congruence R) {x x' : Evolution} (h : x.Alike R x') :
    Option.Rel (fun a b => R a.1 b.1 ∧ R a.2 b.2) (parts? x) (parts? x') := by
  cases h with
  | invariant h => exact .some ⟨h, hR.zero⟩
  | recurrence l hs hd => exact .some ⟨hs, hd⟩
  | unknown => exact .none

namespace Concord

variable (h : Concord f A R wording)

include h

theorem tripCount (l : LoopId) : Alongside A (Option.Rel R)
    ((Engine.ofFunc f f.forest).tripCount l) ((Engine.ofFunc f f.forest).tripCount l) :=
  Describe.alongside_tripCount h.poly h.evolution l

theorem resolve (x : InstId) (l : LoopId) : Alongside A (Option.Rel (AffineAccess.Alike R))
    ((Engine.ofFunc f f.forest).resolve f x l) ((Engine.ofFunc f f.forest).resolve f x l) := by
  unfold Engine.resolve
  split
  case h_1 => exact alongside_pure .none
  case h_2 addr _ =>
    refine (h.evolution addr (some l)).bind_same (fun z => ?_) fun z z' hz => ?_
    · cases z <;> exact grows_pure _
    · cases hz with
      | invariant => exact alongside_pure .none
      | unknown => exact alongside_pure .none
      | recurrence l' hs hd =>
        refine alongside_pure ?_
        split
        · exact .some ⟨hs, hd⟩
        · exact .none

theorem last (scope : Option LoopId) : Alongside A (· = ·)
    (Subscript.last (.ofFunc f f.forest) scope) (Subscript.last (.ofFunc f f.forest) scope) := by
  cases scope with
  | none => exact alongside_pure rfl
  | some l =>
    exact (h.tripCount l).bind_same (fun _ => grows_pure _) fun n n' hn =>
      alongside_pure (by rw [h.poly.bind_const? hn])

theorem ofEvolution (scope : Option LoopId) {p p' : Poly} (hp : R p p') {z z' : Evolution}
    (hz : z.Alike R z') : Alongside A (Option.Rel (Subscript.Alike R))
      (Subscript.ofEvolution (.ofFunc f f.forest) scope p z)
      (Subscript.ofEvolution (.ofFunc f f.forest) scope p' z') := by
  unfold Subscript.ofEvolution
  have hparts := Subscript.parts?_alike h.poly hz
  generalize Subscript.parts? z = ps at hparts ⊢
  generalize Subscript.parts? z' = ps' at hparts ⊢
  cases hparts with
  | none => exact alongside_pure .none
  | @some a b hab =>
    obtain ⟨start, stride⟩ := a
    obtain ⟨start', stride'⟩ := b
    have hsub := h.poly.sub? hab.1 hp
    dsimp only at hsub ⊢
    generalize start.sub? p = offset at hsub ⊢
    generalize start'.sub? p' = offset' at hsub ⊢
    cases hsub with
    | none => exact alongside_pure .none
    | some hoffset =>
      exact (h.last _).bind (fun _ => grows_pure _) (fun _ => grows_pure _) fun _ _ hlast =>
        alongside_pure (.some ⟨hoffset, hab.2, hlast⟩)

theorem ofAccess (x : InstId) : Alongside A (Option.Rel (Subscript.Alike R))
    (Subscript.ofAccess f f.forest (.ofFunc f f.forest) x)
    (Subscript.ofAccess f f.forest (.ofFunc f f.forest) x) := by
  rw [Subscript.ofAccess_eq]
  split
  case h_1 => exact alongside_pure .none
  case h_2 addr _ =>
    split
    case h_1 => exact alongside_pure .none
    case h_2 k _ =>
      have hgrows : ∀ p z, (Subscript.ofEvolution (.ofFunc f f.forest)
          ((f.owner? x).bind f.forest.loopFor?) p z).Grows := fun p z =>
        (Subscript.gathers_ofEvolution f f.forest _ p z).grows
      exact (h.param k).bind_same
        (fun p => (Describe.grows_value f f.forest _ _ _).bind (hgrows p))
        fun p p' hp => (h.evolution addr _).bind (hgrows p) (hgrows p') fun z z' hz =>
          h.ofEvolution _ hp hz

theorem answer (x y : InstId) (same : Bool) : Alongside A (· = ·)
    (Oracle.answer f f.forest (.ofFunc f f.forest) x y same)
    (Oracle.answer f f.forest (.ofFunc f f.forest) x y same) := by
  have hway := Oracle.way_answer f f.forest (.ofFunc f f.forest) x y same
  generalize Oracle.answer f f.forest (.ofFunc f f.forest) x y same = q at hway ⊢
  cases hway with
  | apart => exact alongside_pure rfl
  | confused => exact alongside_pure rfl
  | compared =>
    refine (h.ofAccess x).bind₂ (h.ofAccess y) (Subscript.gathers_ofAccess f f.forest y).grows
      (fun s d => ?_) fun s s' d d' hs hd => ?_
    · cases s <;> cases d <;> exact grows_pure _
    · cases hs with
      | none => exact alongside_pure rfl
      | some hs =>
        cases hd with
        | none => exact alongside_pure rfl
        | some hd => exact alongside_pure (by rw [hs.conflict h.poly hd])

end Concord

/-! Checks that look only at the loops. -/

namespace Checker

open Check

variable {c : Checker} {a b l : Loop}

theorem silent_checkSiblings : (c.checkSiblings a b).Silent := silent_demand _ _

theorem silent_checkShape : (c.checkShape l).Silent := by
  refine (silent_demand _ _).bind fun _ => (silent_need _ _).bind fun exit =>
    (silent_demand _ _).bind fun _ => (silent_need _ _).bind fun op => ?_
  have hlatch : Silent (do
      let latch ← need l.latch? (.shape (c.loopName l) .manyLatches)
      demand (c.func.exitOp? latch = some (.br l.header)) (.shape (c.loopName l) .latchBranches)
      demand (c.latchOnlySteps l latch) (.shape (c.loopName l) .latchWorks)) :=
    (silent_need _ _).bind fun _ => (silent_demand _ _).bind fun _ => silent_demand _ _
  cases op with
  | condBr cond t e => exact (silent_demand _ _).bind fun _ => hlatch
  | _ => exact (silent_reject _).bind fun _ => hlatch

theorem silent_checkAdjacent : (c.checkAdjacent a b).Silent := by
  refine (silent_need _ _).bind fun entry => (silent_demand _ _).bind fun _ => ?_
  split
  · exact (silent_reject _).bind fun _ => silent_demand _ _
  · exact silent_demand _ _

theorem silent_checkFlow : (c.checkFlow a b).Silent := silent_demand _ _

theorem silent_checkScalars : (c.checkScalars a b).Silent := by
  unfold checkScalars
  split
  · exact silent_reject _
  · exact silent_pure ()

/-- What is made of the addresses of the two accesses of a dependence. -/
def weigh (c : Checker) (dep : Dependence) (first? second? : Option AffineAccess) : Check Unit := do
  let what := dep.text c.func
  let fault := Rejection.unproven what (dep.direction ≠ .star)
  let first ← need first? (fault .notAffine)
  let second ← need second? (fault .notAffine)
  demand (c.engine.nonZero first.stride && c.engine.nonZero second.stride) (fault .zeroStride)
  let strideA ← ask (Inquiry.polyText first.stride)
  let strideB ← ask (Inquiry.polyText second.stride)
  demand (first.stride = second.stride) (fault (.strides strideA strideB))
  let distance ← need (c.scaledDistance? first second) (fault .overflow)
  let text ← ask (Inquiry.polyText distance)
  if c.engine.proves .sge distance .zero then
    if dep.direction = .gt then
      warn (what ++ ": oracle reports a backward dependence but distance " ++ text ++
        " is non-negative")
  else if c.engine.proves .slt distance .zero then do
    if dep.direction = .lt || dep.direction = .eq then
      warn (what ++ ": oracle reports a forward dependence but distance " ++ text ++
        " is negative")
    reject (.negative what text)
  else reject (fault (.unknownSign text))

theorem checkDistance_eq (dep : Dependence) : c.checkDistance a b dep = (do
    let fault := Rejection.unproven (dep.text c.func) (dep.direction ≠ .star)
    demand (c.inLoop dep.src a) (fault (.subLoop (c.loopName a)))
    demand (c.inLoop dep.dst b) (fault (.subLoop (c.loopName b)))
    c.weigh dep (← ask (c.engine.resolve c.func dep.src a.id))
      (← ask (c.engine.resolve c.func dep.dst b.id))) := rfl

/-- An access inside of an inner loop is not resolved. -/
theorem checkDistance_eq_reject {dep : Dependence}
    (h : ¬ (c.inLoop dep.src a ∧ c.inLoop dep.dst b)) : ∃ l, c.checkDistance a b dep =
      reject (.unproven (dep.text c.func) (dep.direction ≠ .star) (.subLoop l)) := by
  rw [checkDistance_eq]
  cases hsrc : c.inLoop dep.src a with
  | false => exact ⟨_, rfl⟩
  | true =>
    cases hdst : c.inLoop dep.dst b with
    | false => exact ⟨_, rfl⟩
    | true => exact absurd ⟨hsrc, hdst⟩ h

theorem checkDistance_eq_weigh {dep : Dependence} (hsrc : c.inLoop dep.src a)
    (hdst : c.inLoop dep.dst b) : c.checkDistance a b dep = (do
      c.weigh dep (← ask (c.engine.resolve c.func dep.src a.id))
        (← ask (c.engine.resolve c.func dep.dst b.id))) := by
  rw [checkDistance_eq, hsrc, hdst]
  rfl

/-- What is made of the oracle's report on two accesses. -/
def checkReport (c : Checker) (a b : Loop) : Option Dependence → Check Unit
  | none => pure ()
  | some dep =>
    if c.matters dep then do
      ask (Inquiry.write .debug .legality ("checking dependence " ++ dep.text c.func))
      c.checkDistance a b dep
    else pure ()

theorem checkPair_eq (x y : InstId) : c.checkPair a b (x, y) =
    (do c.checkReport a b (← ask (c.oracle.depends x y true))) := by
  rw [checkPair]
  refine bind_congr fun dep? => ?_
  cases dep? <;> rfl

theorem quiet_weigh (dep : Dependence) (x y : Option AffineAccess) : (c.weigh dep x y).Quiet := by
  refine (quiet_need _ _).bind fun _ => (quiet_need _ _).bind fun _ => (quiet_demand _ _).bind
    fun _ => (quiet_polyText _).bind fun _ => (quiet_polyText _).bind fun _ =>
      (quiet_demand _ _).bind fun _ => (quiet_need _ _).bind fun _ => (quiet_polyText _).bind
        fun _ => ?_
  split
  · split
    · exact quiet_write _ _ _
    · exact quiet_pure ()
  · split
    · dsimp only
      split
      · exact (quiet_write _ _ _).bind fun _ => quiet_reject _
      · exact quiet_reject _
    · exact quiet_reject _

end Checker

/-! Checks that ask questions. -/

namespace Concord

open Check Checker

variable {keep : Bool} {a b : Loop}

theorem keeps_tripCount (l : Loop) :
    ((builtIn (.ofFunc f) keep).tripCount l).run.Keeps :=
  keeps_bind (keeps_ask (Describe.gathers_tripCount f f.forest l.id).keeps) fun _ =>
    (quiet_need _ _).keeps

theorem keeps_checkTripCounts : ((builtIn (.ofFunc f) keep).checkTripCounts a b).run.Keeps :=
  keeps_bind (keeps_tripCount a) fun _ => keeps_bind (keeps_tripCount b) fun _ => Quiet.keeps <|
    (quiet_polyText _).bind fun _ => (quiet_polyText _).bind fun _ => quiet_demand _ _

theorem gathers_evolution (v : Value) (scope : Option LoopId) :
    ((builtIn (.ofFunc f) keep).engine.evolution v scope).Gathers :=
  Describe.gathers_value f f.forest _ v scope

theorem keeps_checkVariables : ((builtIn (.ofFunc f) keep).checkVariables a b).run.Keeps := by
  refine keeps_bind (quiet_need _ _).keeps fun iva => keeps_bind (quiet_need _ _).keeps fun ivb =>
    keeps_bind (quiet_demand _ _).keeps fun _ =>
      keeps_bind (keeps_ask (gathers_evolution _ _).keeps) fun x =>
        keeps_bind (keeps_ask (gathers_evolution _ _).keeps) fun y => Quiet.keeps ?_
  cases x <;> cases y <;> first | exact quiet_demand _ _ | exact quiet_reject _

theorem keeps_checkDistance (dep : Dependence) :
    ((builtIn (.ofFunc f) keep).checkDistance a b dep).run.Keeps := by
  rw [checkDistance_eq]
  exact keeps_bind (quiet_demand _ _).keeps fun _ => keeps_bind (quiet_demand _ _).keeps fun _ =>
    keeps_bind (keeps_ask (Engine.gathers_resolve f f.forest _ _).keeps) fun x =>
      keeps_bind (keeps_ask (Engine.gathers_resolve f f.forest _ _).keeps) fun y =>
        (quiet_weigh dep x y).keeps

theorem keeps_checkReport (dep? : Option Dependence) :
    ((builtIn (.ofFunc f) keep).checkReport a b dep?).run.Keeps := by
  cases dep? with
  | none => exact (quiet_pure ()).keeps
  | some dep =>
    rw [checkReport]
    split
    · exact keeps_bind (quiet_write _ _ _).keeps fun _ => keeps_checkDistance dep
    · exact (quiet_pure ()).keeps

theorem keeps_checkPair (x : InstId × InstId) :
    ((builtIn (.ofFunc f) keep).checkPair a b x).run.Keeps := by
  rw [checkPair_eq]
  exact keeps_bind (keeps_ask (Oracle.gathers_answer f f.forest _ _ _).keeps) keeps_checkReport

theorem keeps_checkDistances : ((builtIn (.ofFunc f) keep).checkDistances a b).run.Keeps :=
  keeps_forM fun x _ => keeps_checkPair x

theorem keeps_afterVariables : Inquiry.Keeps (ExceptT.run (do
    (builtIn (.ofFunc f) keep).checkScalars a b
    (builtIn (.ofFunc f) keep).checkDistances a b)) :=
  keeps_bind silent_checkScalars.1.keeps fun _ => keeps_checkDistances

theorem keeps_afterTripCounts : Inquiry.Keeps (ExceptT.run (do
    (builtIn (.ofFunc f) keep).checkFlow a b
    (builtIn (.ofFunc f) keep).checkVariables a b
    (builtIn (.ofFunc f) keep).checkScalars a b
    (builtIn (.ofFunc f) keep).checkDistances a b)) :=
  keeps_bind silent_checkFlow.1.keeps fun _ => keeps_bind keeps_checkVariables fun _ =>
    keeps_afterVariables

theorem keeps_checkCandidate : ((builtIn (.ofFunc f) keep).checkCandidate a b).run.Keeps :=
  keeps_bind silent_checkSiblings.1.keeps fun _ => keeps_bind silent_checkShape.1.keeps fun _ =>
    keeps_bind silent_checkShape.1.keeps fun _ => keeps_bind silent_checkAdjacent.1.keeps fun _ =>
      keeps_bind keeps_checkTripCounts fun _ => keeps_afterTripCounts

section

variable (h : Concord f A R wording)

include h

theorem alongside_tripCount (l : Loop) : Check.Alongside A wording R
    ((builtIn (.ofFunc f) keep).tripCount l) ((builtIn (.ofFunc f) keep).tripCount l) := by
  refine (alongside_ask (h.tripCount l.id)).bind_same (fun _ => (quiet_need _ _).keeps)
    fun n n' hn => ?_
  cases hn with
  | none => exact alongside_reject (.refl _)
  | some hn => exact Check.alongside_pure hn

theorem alongside_checkTripCounts : Check.Alongside A wording (· = ·)
    ((builtIn (.ofFunc f) keep).checkTripCounts a b)
    ((builtIn (.ofFunc f) keep).checkTripCounts a b) := by
  refine (alongside_tripCount h a).bind₂ (alongside_tripCount h b) (keeps_tripCount b)
    (fun _ _ => Quiet.keeps <| (quiet_polyText _).bind fun _ => (quiet_polyText _).bind fun _ =>
      quiet_demand _ _) fun p p' q q' hp hq => ?_
  refine alongside_text_bind (fun hw => h.text hw hp) fun x x' hx =>
    alongside_text_bind (fun hw => h.text hw hq) fun y y' hy => ?_
  refine alongside_demand (decide_eq_decide.2 (h.poly.eq_iff hp hq)) ⟨rfl, fun hw => ?_⟩
  rw [hx hw, hy hw]

theorem alongside_checkVariables : Check.Alongside A wording (· = ·)
    ((builtIn (.ofFunc f) keep).checkVariables a b)
    ((builtIn (.ofFunc f) keep).checkVariables a b) := by
  refine alongside_need_bind (Poly.rel_rfl _) (.refl _) fun iva _ ha => ?_
  subst ha
  refine alongside_need_bind (Poly.rel_rfl _) (.refl _) fun ivb _ hb => ?_
  subst hb
  refine alongside_demand_bind rfl (.refl _) fun _ => ?_
  refine (alongside_ask (h.evolution iva.start (some a.id))).bind₂
    (alongside_ask (h.evolution ivb.start (some b.id))) (keeps_ask (gathers_evolution _ _).keeps)
    (fun x y => Quiet.keeps ?_) fun x x' y y' hx hy => ?_
  · cases x <;> cases y <;> first | exact quiet_demand _ _ | exact quiet_reject _
  · cases hx with
    | invariant hp =>
      cases hy with
      | invariant hq =>
        exact alongside_demand (decide_eq_decide.2 (h.poly.eq_iff hp hq)) (.refl _)
      | recurrence => exact alongside_reject (.refl _)
      | unknown => exact alongside_reject (.refl _)
    | recurrence => exact alongside_reject (.refl _)
    | unknown => exact alongside_reject (.refl _)

theorem rel_scaledDistance {x x' y y' : AffineAccess} (hx : x.Alike R x') (hy : y.Alike R y')
    (hnz : (builtIn (.ofFunc f) keep).engine.nonZero x.stride) :
    Option.Rel R ((builtIn (.ofFunc f) keep).scaledDistance? x y)
      ((builtIn (.ofFunc f) keep).scaledDistance? x' y') := by
  have hsub := h.poly.sub? hx.1 hy.1
  change Option.Rel R ((x.start.sub? y.start).bind (·.mul? x.stride))
    ((x'.start.sub? y'.start).bind (·.mul? x'.stride))
  generalize x.start.sub? y.start = d at hsub ⊢
  generalize x'.start.sub? y'.start = d' at hsub ⊢
  cases hsub with
  | none => exact .none
  | some hd => exact h.poly.mul? hd hx.2 hnz

theorem alongside_weigh (dep : Dependence) {x x' y y' : Option AffineAccess}
    (hx : Option.Rel (AffineAccess.Alike R) x x') (hy : Option.Rel (AffineAccess.Alike R) y y') :
    Check.Alongside A wording (· = ·) ((builtIn (.ofFunc f) keep).weigh dep x y)
      ((builtIn (.ofFunc f) keep).weigh dep x' y') := by
  refine alongside_need_bind hx (.refl _) fun first first' hfirst => ?_
  refine alongside_need_bind hy (.refl _) fun second second' hsecond => ?_
  have hnonZero : ((builtIn (.ofFunc f) keep).engine.nonZero first.stride &&
      (builtIn (.ofFunc f) keep).engine.nonZero second.stride) =
      ((builtIn (.ofFunc f) keep).engine.nonZero first'.stride &&
        (builtIn (.ofFunc f) keep).engine.nonZero second'.stride) :=
    congrArg₂ _ (h.poly.isNonZero hfirst.2) (h.poly.isNonZero hsecond.2)
  refine alongside_demand_bind hnonZero (.refl _) fun hnz => ?_
  refine alongside_text_bind (fun hw => h.text hw hfirst.2) fun u u' hu =>
    alongside_text_bind (fun hw => h.text hw hsecond.2) fun v v' hv => ?_
  refine alongside_demand_bind (decide_eq_decide.2 (h.poly.eq_iff hfirst.2 hsecond.2))
    ⟨rfl, fun hw => by rw [hu hw, hv hw]⟩ fun _ => ?_
  refine alongside_need_bind (h.rel_scaledDistance hfirst hsecond (Bool.and_eq_true_iff.1 hnz).1)
    (.refl _) fun d d' hd => ?_
  refine alongside_text_bind (fun hw => h.text hw hd) fun w w' hw' => ?_
  have hproves : ∀ test, (builtIn (.ofFunc f) keep).engine.proves test d .zero =
      (builtIn (.ofFunc f) keep).engine.proves test d' .zero := fun test =>
    h.poly.proves test hd h.poly.zero
  have hnegative (what : String) : (Rejection.negative what w).Alike wording (.negative what w') :=
    ⟨rfl, fun hw => congrArg _ (hw' hw)⟩
  have hunknown (what : String) (known : Bool) : (Rejection.unproven what known (.unknownSign w)).Alike
      wording (.unproven what known (.unknownSign w')) :=
    ⟨rfl, fun hw => congrArg (fun t => Rejection.unproven what known (.unknownSign t)) (hw' hw)⟩
  rw [hproves .sge, hproves .slt]
  split
  · split
    · exact alongside_write _ _ _ _
    · exact Check.alongside_pure rfl
  · split
    · dsimp only
      split
      · exact Check.alongside_write_bind (alongside_reject (hnegative _)) _ _ _ _
      · exact alongside_reject (hnegative _)
    · exact alongside_reject (hunknown _ _)

theorem alongside_checkDistance (dep : Dependence) : Check.Alongside A wording (· = ·)
    ((builtIn (.ofFunc f) keep).checkDistance a b dep)
    ((builtIn (.ofFunc f) keep).checkDistance a b dep) := by
  rw [checkDistance_eq]
  refine alongside_demand_bind rfl (.refl _) fun _ => alongside_demand_bind rfl (.refl _) fun _ => ?_
  exact (alongside_ask (h.resolve dep.src a.id)).bind₂ (alongside_ask (h.resolve dep.dst b.id))
    (keeps_ask (Engine.gathers_resolve f f.forest _ _).keeps) (fun x y => (quiet_weigh dep x y).keeps)
    fun _ _ _ _ hx hy => alongside_weigh h dep hx hy

theorem alongside_checkReport (dep? : Option Dependence) : Check.Alongside A wording (· = ·)
    ((builtIn (.ofFunc f) keep).checkReport a b dep?)
    ((builtIn (.ofFunc f) keep).checkReport a b dep?) := by
  cases dep? with
  | none => exact Check.alongside_pure rfl
  | some dep =>
    rw [checkReport]
    split
    · exact Check.alongside_write_bind (alongside_checkDistance h dep) _ _ _ _
    · exact Check.alongside_pure rfl

theorem alongside_checkPair (x : InstId × InstId) : Check.Alongside A wording (· = ·)
    ((builtIn (.ofFunc f) keep).checkPair a b x) ((builtIn (.ofFunc f) keep).checkPair a b x) := by
  rw [checkPair_eq]
  refine (alongside_ask (h.answer x.1 x.2 true)).bind_same keeps_checkReport fun dep? _ hdep => ?_
  subst hdep
  exact alongside_checkReport h dep?

theorem alongside_checkDistances : Check.Alongside A wording (· = ·)
    ((builtIn (.ofFunc f) keep).checkDistances a b)
    ((builtIn (.ofFunc f) keep).checkDistances a b) :=
  alongside_forM (fun x _ => keeps_checkPair x) fun x _ => alongside_checkPair h x

theorem alongside_checkCandidate : Check.Alongside A wording (· = ·)
    ((builtIn (.ofFunc f) keep).checkCandidate a b)
    ((builtIn (.ofFunc f) keep).checkCandidate a b) := by
  rw [checkCandidate]
  refine silent_checkSiblings.alongside_bind fun _ => silent_checkShape.alongside_bind fun _ =>
    silent_checkShape.alongside_bind fun _ => silent_checkAdjacent.alongside_bind fun _ => ?_
  refine (alongside_checkTripCounts h).bind_same (fun _ => keeps_afterTripCounts)
    fun _ _ _ => silent_checkFlow.alongside_bind fun _ => ?_
  exact (alongside_checkVariables h).bind_same (fun _ => keeps_afterVariables)
    fun _ _ _ => silent_checkScalars.alongside_bind fun _ => alongside_checkDistances h

end

end Concord

/-! Scans. -/

namespace Pass

open Check (Match)

variable {keep : Bool} {config : FusionConfig} {a b l : Loop} {sc sc' : Scan} {seen : LastSeen}
  {rest : List Loop}

/-- Two scans that have come to the same plan and rejected the same pairs for reasons of one kind. -/
structure Scan.Alike (sc sc' : Scan) : Prop where
  candidates : sc.candidates = sc'.candidates
  rejected : sc.rejected.map (fun r => (r.pair, r.kind)) = sc'.rejected.map fun r => (r.pair, r.kind)
  plan? : sc.plan? = sc'.plan?

/-- What is made of the verdict on a pair. -/
def concluded (f : Func) (a b : Loop) (v : Except Rejection Unit) : Except Rejection FusionPlan :=
  v.bind fun _ => (FusionPlan.ofLoops f a b).mapError fun e => .plan e.message

theorem judge_eq {c : Checker} : judge c a b =
    (return concluded c.func a b (← (c.checkCandidate a b).verdict)) := by
  unfold judge
  refine bind_congr fun v => ?_
  cases v with
  | error r => rfl
  | ok u =>
    rw [concluded, Except.bind]
    dsimp only
    cases FusionPlan.ofLoops c.func a b <;> rfl

theorem verdict_of_judge {c : Checker} {s : Session} {p : FusionPlan}
    (h : (judge c a b s).1 = .ok p) : ((c.checkCandidate a b).verdict s).1 = .ok () := by
  rw [judge_eq] at h
  change concluded c.func a b ((c.checkCandidate a b).verdict s).1 = .ok p at h
  cases hv : ((c.checkCandidate a b).verdict s).1 with
  | ok _ => rfl
  | error r =>
    rw [hv] at h
    cases h

theorem grows_judge : (judge (.builtIn (.ofFunc f) keep) a b).Grows := by
  rw [judge_eq]
  exact Concord.keeps_checkCandidate.grows.bind fun _ => grows_pure _

theorem grows_walk : (walk (.builtIn (.ofFunc f) keep) sc seen rest).Grows := by
  induction rest generalizing sc seen with
  | nil => exact grows_pure _
  | cons l rest ih =>
    rw [walk]
    split
    · exact ih
    · refine (grows_write _ _ _).bind fun _ => grows_judge.bind fun v => ?_
      cases v with
      | ok plan => exact (grows_write _ _ _).bind fun _ => grows_pure _
      | error r => exact (grows_write _ _ _).bind fun _ => ih

/-- The walk of a scan, which starts without answers. -/
def search (config : FusionConfig) (f : Func) : Inquiry Scan :=
  walk (.builtIn (.ofFunc f) config.keepOutputs) ⟨0, [], none⟩ []
    (f.forest.preorder.filterMap f.forest.loop?)

theorem scan_eq_search (config : FusionConfig) (f : Func) (s : Session) :
    scan config f s = search config f { s with memo := [] } := rfl

theorem grows_search : (search config f).Grows := grows_walk

theorem grows_scan : (scan config f).Grows := grows_forget.bind fun _ => grows_search

variable (h : Concord f A R wording)

include h

theorem alongside_judge (keep : Bool) (a b : Loop) : Alongside A (Match wording (· = ·))
    (judge (.builtIn (.ofFunc f) keep) a b) (judge (.builtIn (.ofFunc f) keep) a b) := by
  rw [judge_eq]
  have hverdict : Alongside A (Match wording (· = ·))
      ((Checker.builtIn (.ofFunc f) keep).checkCandidate a b).verdict
      ((Checker.builtIn (.ofFunc f) keep).checkCandidate a b).verdict :=
    Concord.alongside_checkCandidate h
  refine hverdict.bind_same (fun _ => grows_pure _) fun v v' hv => alongside_pure ?_
  cases hv with
  | error hr => exact .error hr
  | ok _ =>
    change Match wording (· = ·) ((FusionPlan.ofLoops f a b).mapError _)
      ((FusionPlan.ofLoops f a b).mapError _)
    cases FusionPlan.ofLoops f a b with
    | error e => exact .error (.refl _)
    | ok p => exact .ok rfl

theorem alongside_walk (hsc : sc.Alike sc') : Alongside A Scan.Alike
    (walk (.builtIn (.ofFunc f) keep) sc seen rest)
    (walk (.builtIn (.ofFunc f) keep) sc' seen rest) := by
  induction rest generalizing sc sc' seen with
  | nil => exact alongside_pure hsc
  | cons l rest ih =>
    rw [walk, walk]
    split
    · exact ih hsc
    case h_2 prev _ =>
      refine alongside_write_bind ((alongside_judge h keep prev l).bind (fun v => ?_) (fun v => ?_)
        fun v v' hv => ?_) _ _ _ _
      · cases v with
        | ok plan => exact (grows_write _ _ _).bind fun _ => grows_pure _
        | error r => exact (grows_write _ _ _).bind fun _ => grows_walk
      · cases v with
        | ok plan => exact (grows_write _ _ _).bind fun _ => grows_pure _
        | error r => exact (grows_write _ _ _).bind fun _ => grows_walk
      · cases hv with
        | ok hp =>
          refine alongside_write_bind ?_ _ _ _ _
          exact alongside_pure ⟨congrArg (· + 1) hsc.candidates, hsc.rejected, congrArg some hp⟩
        | error hr =>
          refine alongside_write_bind ?_ _ _ _ _
          exact ih ⟨congrArg (· + 1) hsc.candidates, by simp [hsc.rejected, hr.1], hsc.plan?⟩

theorem alongside_search (config : FusionConfig) :
    Alongside A Scan.Alike (search config f) (search config f) :=
  alongside_walk h ⟨rfl, rfl, rfl⟩

end Pass

end LoopFusion
