import LoopFusion.Proofs.Inquiry
import LoopFusion.Proofs.Memory.Independence

/-!
The equation that the oracle answers by. If there is no conflict, the equation has no solution, or
only solutions within one iteration where these are not asked for. If there is a distance, all
solutions have it.
-/

namespace LoopFusion

/-- `srcStride * ks - dstStride * kd = offset`, with the last iterations where these are known. -/
structure Equation where
  srcStride : Int
  dstStride : Int
  offset : Int
  srcLast? : Option Int
  dstLast? : Option Int
deriving DecidableEq

namespace Equation

variable {q : Equation} {x y : InstId} {kind : DependenceKind} {same : Bool} {dep : Dependence}
  {d ks kd : Int}

def Solves (q : Equation) (ks kd : Int) : Prop := q.srcStride * ks - q.dstStride * kd = q.offset

def Within (q : Equation) (ks kd : Int) : Prop := Conflict.Within q.srcLast? q.dstLast? ks kd

def conflict (q : Equation) : Conflict :=
  .ofEquation q.srcStride q.dstStride q.offset q.srcLast? q.dstLast?

/-- The report on two accesses with this equation. -/
def answer (q : Equation) (x y : InstId) (kind : DependenceKind) (same : Bool) :
    Option Dependence :=
  Oracle.report x y kind same q.conflict

theorem same_of_none (h : q.answer x y kind same = none) (hk : q.Within ks kd)
    (hsol : q.Solves ks kd) : same = false ∧ ks = kd := by
  obtain hnever | ⟨hsame, hzero⟩ := Oracle.report_eq_none h
  · exact absurd hsol (Conflict.no_solution hnever hk)
  · have hdist := Conflict.distance_eq hzero hsol
    exact ⟨hsame, by omega⟩

theorem spaced_of_distance (h : q.answer x y kind same = some dep) (hd : dep.distance? = some d) :
    dep.direction = .ofDistance d ∧ ∀ ks kd, q.Solves ks kd → kd - ks = d := by
  obtain rfl | ⟨d', halways, rfl⟩ := Oracle.report_eq_some h
  · cases hd
  · obtain rfl := Option.some.inj hd
    exact ⟨rfl, fun ks kd => Conflict.distance_eq halways⟩

end Equation

theorem Direction.ofDistance_spec (d : Int) : (ofDistance d = .lt ↔ 0 < d) ∧
    (ofDistance d = .eq ↔ d = 0) ∧ (ofDistance d = .gt ↔ d < 0) := by
  unfold ofDistance
  split
  case isTrue hneg =>
    simp only [reduceCtorEq, false_iff, true_iff]
    omega
  case isFalse hneg =>
    split
    case isTrue hzero =>
      simp only [reduceCtorEq, false_iff, true_iff]
      omega
    case isFalse hzero =>
      simp only [reduceCtorEq, false_iff, true_iff]
      omega

def Subscript.equation? (s d : Subscript) : Option Equation :=
  match (d.start.sub? s.start).bind Poly.const?, s.stride.const?, d.stride.const? with
  | some c, some a, some b => some ⟨a, b, c, s.last?, d.last?⟩
  | _, _, _ => none

theorem Subscript.conflict_of_equation? {s d : Subscript} {q : Equation}
    (h : s.equation? d = some q) : s.conflict d = q.conflict := by
  unfold equation? at h
  split at h
  case h_1 c a b hc ha hb =>
    obtain rfl := Option.some.inj h
    rw [conflict, hc, ha, hb]
    rfl
  case h_2 => cases h

namespace Oracle

variable {f : Func} {t : LoopForest} {e : Engine} {x y : InstId} {s : Session} {q : Equation}

/-- The equation between two accesses of one array, when all its coefficients are numbers. -/
def equation? (f : Func) (t : LoopForest) (e : Engine) (x y : InstId) :
    Inquiry (Option Equation) :=
  match f.op? x, f.op? y with
  | some srcOp, some dstOp =>
    if sameArray? f srcOp dstOp = some true then do
      let src ← Subscript.ofAccess f t e x
      let dst ← Subscript.ofAccess f t e y
      match src, dst with
      | some src, some dst => return src.equation? dst
      | _, _ => return none
    else return none
  | _, _ => return none

theorem accessesMemory_of_sameArray? {src dst : Operation} {same : Bool}
    (h : sameArray? f src dst = some same) : src.accessesMemory ∧ dst.accessesMemory := by
  obtain ⟨vx, hx, h⟩ := Option.bind_eq_some_iff.1 h
  obtain ⟨j, hj, h⟩ := Option.bind_eq_some_iff.1 h
  obtain ⟨vy, hy, -⟩ := Option.bind_eq_some_iff.1 h
  exact ⟨Operation.accessesMemory_of_address? hx, Operation.accessesMemory_of_address? hy⟩

theorem answer_eq_compare {opx opy : Operation} (hx : f.op? x = some opx) (hy : f.op? y = some opy)
    (hsame : sameArray? f opx opy = some true) (same : Bool) : answer f t e x y same =
      compare f t e x y (.ofWrites opx.writesMemory opy.writesMemory) same := by
  obtain ⟨haccx, haccy⟩ := accessesMemory_of_sameArray? hsame
  simp only [answer, hx, hy, haccx, haccy, hsame, Bool.not_true, Bool.or_false,
    Bool.false_eq_true, if_false]
  rfl

theorem answer_of_equation? {s' : Session} (h : equation? f t e x y s = (some q, s')) :
    ∃ kind, ∀ same, answer f t e x y same s = (q.answer x y kind same, s') := by
  cases hx : f.op? x with
  | none =>
    rw [equation?, hx] at h
    cases (Prod.mk.inj h).1
  | some opx =>
    cases hy : f.op? y with
    | none =>
      rw [equation?, hx, hy] at h
      cases (Prod.mk.inj h).1
    | some opy =>
      simp only [equation?, hx, hy] at h
      split at h
      case isFalse => cases (Prod.mk.inj h).1
      case isTrue hsame =>
        obtain ⟨sx?, s₁, hsx, h⟩ := Inquiry.bind_eq_iff.1 h
        obtain ⟨sy?, s₂, hsy, h⟩ := Inquiry.bind_eq_iff.1 h
        refine ⟨.ofWrites opx.writesMemory opy.writesMemory, fun same => ?_⟩
        rw [answer_eq_compare hx hy hsame]
        refine Inquiry.bind_eq_iff.2 ⟨sx?, s₁, hsx, Inquiry.bind_eq_iff.2 ⟨sy?, s₂, hsy, ?_⟩⟩
        cases sx? with
        | none => cases (Prod.mk.inj h).1
        | some sx =>
          cases sy? with
          | none => cases (Prod.mk.inj h).1
          | some sy =>
            obtain ⟨hq, rfl⟩ := Prod.mk.inj h
            have hconf := Subscript.conflict_of_equation? hq
            exact Prod.ext (congrArg (report x y _ same) hconf) rfl

/-- No conflict means no solution, or none in different iterations. A distance is the distance of all
solutions, and the direction is its sign. -/
theorem answer_sound (h : (equation? f t e x y s).1 = some q) :
    (((ofEngine f t e).depends x y true s).1 = none →
      ∀ ks kd, q.Within ks kd → ¬ q.Solves ks kd) ∧
    (((ofEngine f t e).depends x y false s).1 = none →
      ∀ ks kd, q.Within ks kd → q.Solves ks kd → ks = kd) ∧
    ∀ same dep d, ((ofEngine f t e).depends x y same s).1 = some dep → dep.distance? = some d →
      (∀ ks kd, q.Solves ks kd → kd - ks = d) ∧ (dep.direction = .lt ↔ 0 < d) ∧
        (dep.direction = .eq ↔ d = 0) ∧ (dep.direction = .gt ↔ d < 0) := by
  obtain ⟨kind, hanswer⟩ := answer_of_equation? (Prod.ext h rfl)
  simp only [ofEngine, hanswer]
  refine ⟨fun hnone ks kd hk hsol => ?apart, fun hnone ks kd hk hsol => ?together,
    fun same dep d hsome hd => ?spaced⟩
  case apart => cases (Equation.same_of_none hnone hk hsol).1
  case together => exact (Equation.same_of_none hnone hk hsol).2
  case spaced =>
    obtain ⟨hdir, hdist⟩ := Equation.spaced_of_distance hsome hd
    rw [hdir]
    exact ⟨hdist, Direction.ofDistance_spec d⟩

/-- The second loop reads what the first has written in the same iteration, and writes where the
first never does. -/
theorem answer_sound_copyLoops :
    (equation? Func.copyLoops Func.copyLoops.forest (.ofFunc Func.copyLoops Func.copyLoops.forest)
      ⟨4⟩ ⟨13⟩ .start).1 = some ⟨1, 1, 0, some 3, some 3⟩ ∧
    (∀ ks kd, Equation.Solves ⟨1, 1, 0, some 3, some 3⟩ ks kd → kd - ks = 0) ∧
    (∀ ks kd, Equation.Within ⟨1, 1, 0, some 3, some 3⟩ ks kd →
      Equation.Solves ⟨1, 1, 0, some 3, some 3⟩ ks kd → ks = kd) ∧
    (equation? Func.copyLoops Func.copyLoops.forest (.ofFunc Func.copyLoops Func.copyLoops.forest)
      ⟨4⟩ ⟨16⟩ .start).1 = some ⟨1, 1, 8, some 3, some 3⟩ ∧
    ∀ ks kd, Equation.Within ⟨1, 1, 8, some 3, some 3⟩ ks kd →
      ¬ Equation.Solves ⟨1, 1, 8, some 3, some 3⟩ ks kd := by
  have hread : (equation? Func.copyLoops Func.copyLoops.forest
      (.ofFunc Func.copyLoops Func.copyLoops.forest) ⟨4⟩ ⟨13⟩ .start).1 =
        some ⟨1, 1, 0, some 3, some 3⟩ := by decide +kernel
  have hwritten : (equation? Func.copyLoops Func.copyLoops.forest
      (.ofFunc Func.copyLoops Func.copyLoops.forest) ⟨4⟩ ⟨16⟩ .start).1 =
        some ⟨1, 1, 8, some 3, some 3⟩ := by decide +kernel
  obtain ⟨-, htogether, hspaced⟩ := answer_sound hread
  obtain ⟨hapart, -⟩ := answer_sound hwritten
  have hzero := hspaced true (.atDistance ⟨4⟩ ⟨13⟩ .flow 0) 0 (by decide +kernel) rfl
  exact ⟨hread, hzero.1, htogether (by decide +kernel), hwritten, hapart (by decide +kernel)⟩

end Oracle

end LoopFusion
