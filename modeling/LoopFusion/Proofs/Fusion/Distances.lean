import LoopFusion.Proofs.Fusion.Warnings

/-!
What the distance check says about the rounds in which two accesses meet. It never divides: it
multiplies the difference of the starts by the stride, so its sign is that of the distance whichever
way the accesses move.
-/

namespace LoopFusion

open Inquiry

namespace Check

variable {α β : Type} {c : Check α} {g : α → Check β} {q : Inquiry α} {x : Option α} {ok : Bool}
  {r : Rejection} {P : Except Rejection β → Prop}

theorem ensures_reject (h : P (.error r)) : (reject r : Check β).run.Ensures P := fun _ => h

theorem ensures_ask_bind (hg : ∀ a, (g a).run.Ensures P) : (ask q >>= g).run.Ensures P := by
  rw [run_ask_bind]
  exact ensures_bind hg

theorem ensures_demand_bind {g : Unit → Check β} (h : P (.error r))
    (hg : ok = true → (g ()).run.Ensures P) : (demand ok r >>= g).run.Ensures P := by
  cases ok with
  | true => exact hg rfl
  | false => exact fun _ => h

theorem ensures_need_bind (h : P (.error r)) (hg : ∀ a, x = some a → (g a).run.Ensures P) :
    (need x r >>= g).run.Ensures P := by
  cases x with
  | some a => exact hg a rfl
  | none => exact fun _ => h

end Check

/-- The address of an access in round `k`. -/
def AffineAccess.address (ρ : Symbol → Int) (a : AffineAccess) (k : Int) : Int :=
  a.start.eval ρ + a.stride.eval ρ * k

namespace Checker

open Check

variable {c : Checker} {a b : Loop} {dep : Dependence} {s : Session} {facts : FlowFacts}
  {oracle : Oracle} {keep : Bool} {first second : AffineAccess}
  {first? second? : Option AffineAccess}

/-- The distance between two accesses that move alike is `d`. -/
structure Spaced (c : Checker) (first second : AffineAccess) (d : Poly) : Prop where
  nonZero : c.engine.nonZero first.stride
  stride : first.stride = second.stride
  distance : c.scaledDistance? first second = some d

/-- How the check of a distance may end. -/
inductive Weighed (c : Checker) (first? second? : Option AffineAccess) :
    Except Rejection Unit → Prop
  | forward {first second : AffineAccess} {d : Poly} : first? = some first →
    second? = some second → c.Spaced first second d → c.engine.proves .sge d .zero →
      Weighed c first? second? (.ok ())
  | backward {first second : AffineAccess} {d : Poly} (what text : String) : first? = some first →
    second? = some second → c.Spaced first second d → c.engine.proves .slt d .zero →
      Weighed c first? second? (.error (.negative what text))
  | unproven (what : String) (known : Bool) (fault : DistanceFault) :
    Weighed c first? second? (.error (.unproven what known fault))

theorem weigh_ensures (dep : Dependence) :
    (c.weigh dep first? second?).run.Ensures (c.Weighed first? second?) := by
  refine ensures_need_bind (.unproven ..) fun first hfirst =>
    ensures_need_bind (.unproven ..) fun second hsecond =>
    ensures_demand_bind (.unproven ..) fun hnz =>
    ensures_ask_bind fun _ => ensures_ask_bind fun _ =>
    ensures_demand_bind (.unproven ..) fun hstride =>
    ensures_need_bind (.unproven ..) fun d hd => ensures_ask_bind fun text => ?_
  have hspaced : c.Spaced first second d :=
    ⟨(Bool.and_eq_true_iff.1 hnz).1, of_decide_eq_true hstride, hd⟩
  split
  case isTrue hge =>
    have hforward : c.Weighed first? second? (.ok ()) := .forward hfirst hsecond hspaced hge
    split
    · exact fun _ => hforward
    · exact fun _ => hforward
  case isFalse =>
    split
    case isTrue hlt =>
      have hbackward := ensures_reject
        (Weighed.backward (dep.text c.func) text hfirst hsecond hspaced hlt)
      dsimp only
      split
      · exact ensures_ask_bind fun _ => hbackward
      · exact hbackward
    case isFalse => exact ensures_reject (.unproven ..)

/-- The recurrences that the check finds for the accesses of a dependence, which move alike. -/
structure Resolves (c : Checker) (a b : Loop) (dep : Dependence) (s : Session)
    (first second : AffineAccess) : Prop where
  addresses : ∃ s₁ s₂, c.engine.resolve c.func dep.src a.id s = (some first, s₁) ∧
    c.engine.resolve c.func dep.dst b.id s₁ = (some second, s₂)
  stride : first.stride = second.stride

theorem checkDistance_weighed (c : Checker) (a b : Loop) (dep : Dependence) (s : Session) :
    (∃ what known fault,
      ((c.checkDistance a b dep).run s).1 = .error (.unproven what known fault)) ∨
      ∃ first? second? s₁ s₂, c.engine.resolve c.func dep.src a.id s = (first?, s₁) ∧
        c.engine.resolve c.func dep.dst b.id s₁ = (second?, s₂) ∧
          c.Weighed first? second? ((c.checkDistance a b dep).run s).1 := by
  by_cases hin : c.inLoop dep.src a ∧ c.inLoop dep.dst b
  · rw [checkDistance_eq_weigh hin.1 hin.2, run_ask_bind]
    exact .inr ⟨_, _, _, _, rfl, rfl, weigh_ensures dep _⟩
  · obtain ⟨l, hl⟩ := checkDistance_eq_reject hin
    rw [hl]
    exact .inl ⟨_, _, _, rfl⟩

/-- The sign of a distance, for two accesses that are at one address in the rounds `i` and `j`. -/
theorem Spaced.meets {d : Poly} {ρ : Symbol → Int} {i j : Int}
    (h : Spaced ⟨facts, .ofFunc facts.func facts.loops, oracle, keep⟩ first second d)
    (hmeet : first.address ρ i = second.address ρ j) :
    (d.proves .sge .zero → i ≤ j) ∧ (d.proves .slt .zero → j < i) := by
  rw [AffineAccess.address, AffineAccess.address, ← h.stride] at hmeet
  have hdist : (builtIn facts keep).scaledDistance? first second = some d := h.distance
  obtain ⟨n, hn, heval⟩ := eval_scaledDistance h.nonZero hdist hmeet
  refine ⟨fun hge => le_of_scaledDistance h.nonZero hdist hge hmeet, fun hlt => ?_⟩
  have hneg := Poly.lt_of_proves (ρ := ρ) hlt
  rw [heval, Poly.eval_zero] at hneg
  have := neg_of_mul_neg_right hneg hn.le
  omega

/-- Where the check of a distance passes, the second access comes to an address of the first in no
earlier a round, whatever the unknowns stand for; where it says that the distance is negative, in an
earlier one. -/
theorem checkDistance_signed (facts : FlowFacts) (oracle : Oracle) (keep : Bool) (a b : Loop)
    (dep : Dependence) (s : Session) :
    let c : Checker := ⟨facts, .ofFunc facts.func facts.loops, oracle, keep⟩
    (((c.checkDistance a b dep).run s).1 = .ok () →
      ∃ first second, c.Resolves a b dep s first second ∧
        ∀ ρ i j, first.address ρ i = second.address ρ j → i ≤ j) ∧
    ∀ r, ((c.checkDistance a b dep).run s).1 = .error r → r.kind = .negativeDistance →
      ∃ first second, c.Resolves a b dep s first second ∧
        ∀ ρ i j, first.address ρ i = second.address ρ j → j < i := by
  intro c
  rcases c.checkDistance_weighed a b dep s with ⟨what, known, fault, h⟩ | h
  · rw [h]
    refine ⟨nofun, fun r hr hkind => ?_⟩
    obtain rfl := Except.error.inj hr
    cases known <;> cases hkind
  obtain ⟨first?, second?, s₁, s₂, hfirst, hsecond, h⟩ := h
  generalize ((c.checkDistance a b dep).run s).1 = v at h
  cases h with
  | forward h₁ h₂ hspaced hge =>
    subst h₁ h₂
    exact ⟨fun _ => ⟨_, _, ⟨⟨s₁, s₂, hfirst, hsecond⟩, hspaced.stride⟩,
      fun ρ i j hmeet => (hspaced.meets hmeet).1 hge⟩, nofun⟩
  | backward _ _ h₁ h₂ hspaced hlt =>
    subst h₁ h₂
    exact ⟨nofun, fun _ _ _ => ⟨_, _, ⟨⟨s₁, s₂, hfirst, hsecond⟩, hspaced.stride⟩,
      fun ρ i j hmeet => (hspaced.meets hmeet).2 hlt⟩⟩
  | unproven _ known =>
    refine ⟨nofun, fun r hr hkind => ?_⟩
    obtain rfl := Except.error.inj hr
    cases known <;> cases hkind

/-- The loops of `readAhead` in their order, and the other way round. -/
theorem checkDistance_signed_readAhead : ∃ a ∈ Func.readAhead.forest.loops,
    ∃ b ∈ Func.readAhead.forest.loops,
      (∃ first second, (builtIn (.ofFunc Func.readAhead) true).Resolves a b
          (.atDistance ⟨4⟩ ⟨14⟩ .flow (-1)) .start first second ∧
        ∀ ρ i j, first.address ρ i = second.address ρ j → j < i) ∧
      ∃ first second, (builtIn (.ofFunc Func.readAhead) true).Resolves b a
          (.atDistance ⟨14⟩ ⟨4⟩ .anti 1) .start first second ∧
        ∀ ρ i j, first.address ρ i = second.address ρ j → i ≤ j := by
  let a := Func.readAhead.forest.loops.get ⟨0, by rw [Func.length_readAhead]; decide⟩
  let b := Func.readAhead.forest.loops.get ⟨1, by rw [Func.length_readAhead]; decide⟩
  let c := builtIn (.ofFunc Func.readAhead) true
  obtain ⟨r, hr, hkind⟩ : ∃ r, ((c.checkDistance a b (.atDistance ⟨4⟩ ⟨14⟩ .flow (-1))).run
      .start).1 = .error r ∧ r.kind = .negativeDistance := by
    have hkind : (((c.checkDistance a b (.atDistance ⟨4⟩ ⟨14⟩ .flow (-1))).run .start).1.mapError
        Rejection.kind) = .error .negativeDistance := by decide +kernel
    cases hv : ((c.checkDistance a b (.atDistance ⟨4⟩ ⟨14⟩ .flow (-1))).run .start).1 with
    | ok u => rw [hv] at hkind; cases hkind
    | error r => exact ⟨r, rfl, Except.error.inj (hv ▸ hkind)⟩
  have hok := eq_ok_of_isOk (x := ((c.checkDistance b a
    (.atDistance ⟨14⟩ ⟨4⟩ .anti 1)).run .start).1) (by decide +kernel)
  exact ⟨a, List.get_mem _ _, b, List.get_mem _ _,
    (checkDistance_signed (.ofFunc Func.readAhead) c.oracle true a b _ .start).2 r hr hkind,
    (checkDistance_signed (.ofFunc Func.readAhead) c.oracle true b a _ .start).1 hok⟩

end Checker

end LoopFusion
