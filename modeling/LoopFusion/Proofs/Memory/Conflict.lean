import Mathlib.Algebra.Order.Ring.Int
import Mathlib.Tactic.Ring
import LoopFusion.Memory.Dependence
import LoopFusion.Proofs.Arith.Solvable

/-!
The equation of two subscripts has no solution when the tests say that it has none.
-/

namespace LoopFusion

namespace Diophantine

theorem Term.bounds {t : Term} {x : Int} (hl : t.lower ≤ x) (hu : x ≤ t.upper) :
    t.min ≤ t.coeff * x ∧ t.coeff * x ≤ t.max := by
  rw [Term.min, Term.max]
  split
  case isTrue h =>
    exact ⟨mul_le_mul_of_nonneg_left hl h.le, mul_le_mul_of_nonneg_left hu h.le⟩
  case isFalse h =>
    exact ⟨mul_le_mul_of_nonpos_left hu (by omega), mul_le_mul_of_nonpos_left hl (by omega)⟩

theorem banerjeeTest_pair {a b c x y m n : Int} (hx : 0 ≤ x) (hy : 0 ≤ y) (hm : x ≤ m)
    (hn : y ≤ n) (h : c + a * x + b * y = 0) : banerjeeTest [a, b] c [0, 0] [m, n] := by
  have hsx := Term.bounds (t := ⟨a, 0, m⟩) hx hm
  have hsy := Term.bounds (t := ⟨b, 0, n⟩) hy hn
  dsimp only at hsx hsy
  have hle : c + Term.min ⟨a, 0, m⟩ + Term.min ⟨b, 0, n⟩ ≤ 0 := by omega
  have hge : 0 ≤ c + Term.max ⟨a, 0, m⟩ + Term.max ⟨b, 0, n⟩ := by omega
  simp [banerjeeTest, terms?, intervalTest, hle, hge]

end Diophantine

open Diophantine

namespace Conflict

variable {a b c k x y : Int} {srcMax? dstMax? : Option Int}

/-- What a classification rests on. -/
inductive Grounds (a b c : Int) (srcMax? dstMax? : Option Int) : Conflict → Prop
  | indivisible : ¬ gcdTest [a, -b] c → Grounds a b c srcMax? dstMax? .never
  | outOfRange : ofEquation.outOfRange a srcMax? dstMax? (-b) (-c) →
    Grounds a b c srcMax? dstMax? .never
  | fraction : a = b → ¬ a ∣ c → Grounds a b c srcMax? dstMax? .never
  | quotient {k : Int} : a = b → a ≠ 0 → k * a = -c → Grounds a b c srcMax? dstMax? (.always k)
  | unknown : Grounds a b c srcMax? dstMax? .possible

theorem grounds_ofEquation (a b c : Int) (srcMax? dstMax? : Option Int) :
    Grounds a b c srcMax? dstMax? (ofEquation a b c srcMax? dstMax?) := by
  unfold ofEquation
  split
  case h_2 => exact .unknown
  case h_1 negB negC hb hc =>
    obtain ⟨-, rfl⟩ := checked_eq_some_iff.1 hb
    obtain ⟨-, rfl⟩ := checked_eq_some_iff.1 hc
    split
    case isTrue hgcd => exact .indivisible (by simpa using hgcd)
    case isFalse =>
      split
      case isTrue hrange => exact .outOfRange hrange
      case isFalse =>
        split
        case isTrue => exact .unknown
        case isFalse hab =>
          simp only [ne_eq, Bool.or_eq_true, decide_eq_true_eq, not_or, not_not] at hab
          split
          case isTrue hmod =>
            refine .fraction hab.1 fun hdvd => hmod ?_
            exact Int.emod_eq_zero_of_dvd ((Int.dvd_neg).2 hdvd)
          case isFalse hmod =>
            have hdvd := Int.dvd_of_emod_eq_zero (not_not.1 hmod)
            cases hq : checked (-c / a) with
            | none => exact .unknown
            | some q =>
              obtain ⟨-, rfl⟩ := checked_eq_some_iff.1 hq
              exact .quotient hab.1 hab.2 (Int.ediv_mul_cancel hdvd)

/-- The iterations lie between zero and the last ones, when both of these are known. -/
def Within (srcMax? dstMax? : Option Int) (x y : Int) : Prop :=
  ∀ m n, srcMax? = some m → dstMax? = some n → (0 ≤ x ∧ x ≤ m) ∧ 0 ≤ y ∧ y ≤ n

theorem not_outOfRange (hxy : Within srcMax? dstMax? x y) (hsol : a * x - b * y = c) :
    ofEquation.outOfRange a srcMax? dstMax? (-b) (-c) = false := by
  unfold ofEquation.outOfRange
  split
  case h_1 m n =>
    obtain ⟨⟨hx, hxm⟩, hy, hyn⟩ := hxy m n rfl rfl
    have hban : banerjeeTest [a, -b] (-c) [0, 0] [m, n] :=
      banerjeeTest_pair hx hy hxm hyn (by rw [neg_mul]; omega)
    simp only [hban, Bool.not_true, Bool.or_false, Bool.or_eq_false_iff, decide_eq_false_iff_not]
    omega
  case h_2 => rfl

theorem no_solution (h : ofEquation a b c srcMax? dstMax? = .never)
    (hxy : Within srcMax? dstMax? x y) : a * x - b * y ≠ c := by
  intro hsol
  have hgrounds := grounds_ofEquation a b c srcMax? dstMax?
  rw [h] at hgrounds
  cases hgrounds with
  | indivisible hgcd => exact hgcd (gcdTest_pair (x := x) (y := y) (by rw [neg_mul]; omega))
  | outOfRange hrange =>
    rw [not_outOfRange hxy hsol] at hrange
    cases hrange
  | fraction hab hdvd =>
    refine hdvd ⟨x - y, ?_⟩
    rw [← hsol, ← hab]
    ring

/-- A distance that all solutions have is the quotient of the offset and the common coefficient. -/
theorem ofEquation_eq_always (h : ofEquation a b c srcMax? dstMax? = .always k) :
    a = b ∧ a ≠ 0 ∧ k * a = -c := by
  have hgrounds := grounds_ofEquation a b c srcMax? dstMax?
  rw [h] at hgrounds
  cases hgrounds with
  | quotient hab hne hk => exact ⟨hab, hne, hk⟩

theorem distance_eq (h : ofEquation a b c srcMax? dstMax? = .always k) (hsol : a * x - b * y = c) :
    y - x = k := by
  obtain ⟨rfl, hne, hk⟩ := ofEquation_eq_always h
  apply mul_right_cancel₀ hne
  rw [hk, ← hsol]
  ring

end Conflict

namespace Oracle

variable {x y : InstId} {kind : DependenceKind} {same : Bool} {c : Conflict} {dep : Dependence}

theorem report_eq_none (h : report x y kind same c = none) :
    c = .never ∨ same = false ∧ c = .always 0 := by
  cases c with
  | never => exact .inl rfl
  | possible => cases h
  | always d =>
    rw [report] at h
    split at h
    case isTrue hd =>
      rw [Bool.and_eq_true, Bool.not_eq_true', decide_eq_true_eq] at hd
      exact .inr ⟨hd.2, congrArg Conflict.always hd.1⟩
    case isFalse => cases h

theorem report_eq_some (h : report x y kind same c = some dep) :
    dep = .unresolved x y kind false ∨ ∃ d, c = .always d ∧ dep = .atDistance x y kind d := by
  cases c with
  | never => cases h
  | possible => exact .inl (Option.some.inj h).symm
  | always d =>
    obtain ⟨-, h⟩ := Option.ite_none_left_eq_some.1 h
    exact .inr ⟨d, rfl, (Option.some.inj h).symm⟩

/-- The answer for two accesses of one array. -/
def compare (f : Func) (t : LoopForest) (e : Engine) (x y : InstId) (kind : DependenceKind)
    (same : Bool) : Inquiry (Option Dependence) := do
  let s ← Subscript.ofAccess f t e x
  let d ← Subscript.ofAccess f t e y
  match s, d with
  | some s, some d => return report x y kind same (s.conflict d)
  | _, _ => return some (.unresolved x y kind false)

/-- The ways to an answer. Only accesses of one array are asked about. -/
inductive Way (f : Func) (t : LoopForest) (e : Engine) (x y : InstId) (same : Bool) :
    Inquiry (Option Dependence) → Prop
  | apart : (∀ opx opy, f.op? x = some opx → f.op? y = some opy → opx.accessesMemory →
      opy.accessesMemory → sameArray? f opx opy = some false) → Way f t e x y same (pure none)
  | confused {opx opy : Operation} : f.op? x = some opx → f.op? y = some opy →
    sameArray? f opx opy = none → Way f t e x y same
      (pure (some (.unresolved x y (.ofWrites opx.writesMemory opy.writesMemory) true)))
  | compared {opx opy : Operation} : f.op? x = some opx → f.op? y = some opy →
    sameArray? f opx opy = some true → Way f t e x y same
      (compare f t e x y (.ofWrites opx.writesMemory opy.writesMemory) same)

theorem way_answer (f : Func) (t : LoopForest) (e : Engine) (x y : InstId) (same : Bool) :
    Way f t e x y same (answer f t e x y same) := by
  unfold answer
  split
  case h_2 hno => exact .apart fun _ _ hx hy => (hno _ _ hx hy).elim
  case h_1 opx opy hx hy =>
    have heq : ∀ opx' opy', f.op? x = some opx' → f.op? y = some opy' →
        opx' = opx ∧ opy' = opy := by
      intro opx' opy' hx' hy'
      exact ⟨Option.some.inj (hx'.symm.trans hx), Option.some.inj (hy'.symm.trans hy)⟩
    split
    case isTrue hno =>
      refine .apart fun opx' opy' hx' hy' haccx haccy => ?_
      obtain ⟨rfl, rfl⟩ := heq _ _ hx' hy'
      simp [haccx, haccy] at hno
    case isFalse =>
      dsimp only
      split
      case h_1 hsame => exact .confused hx hy hsame
      case h_2 hsame =>
        refine .apart fun opx' opy' hx' hy' _ _ => ?_
        obtain ⟨rfl, rfl⟩ := heq _ _ hx' hy'
        exact hsame
      case h_3 hsame => exact .compared hx hy hsame

end Oracle

end LoopFusion
