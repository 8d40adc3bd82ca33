import Mathlib.Algebra.BigOperators.Group.List.Basic
import Mathlib.Tactic.Ring
import LoopFusion.Symbolic.Poly

/-!
The value of a polynomial when its symbols have values. Arithmetic on polynomials, where it answers,
is arithmetic on values.
-/

namespace LoopFusion

variable {ρ : Symbol → Int}

namespace Monomial

variable {m n : Monomial}

def eval (ρ : Symbol → Int) (m : Monomial) : Int := (m.map ρ).prod

theorem eval_cons (s : Symbol) (m : Monomial) : eval ρ (s :: m) = ρ s * eval ρ m := by
  rw [eval, List.map_cons, List.prod_cons, eval]

theorem eval_insert (s : Symbol) (m : Monomial) : eval ρ (insert s m) = ρ s * eval ρ m := by
  induction m with
  | nil => rfl
  | cons t m ih =>
    rw [insert]
    split
    · rw [eval_cons]
    · rw [eval_cons, eval_cons, ih, mul_left_comm]

theorem eval_times (m n : Monomial) : eval ρ (times m n) = eval ρ m * eval ρ n := by
  induction m with
  | nil => simp [times, eval]
  | cons s m ih =>
    change eval ρ (insert s (times m n)) = _
    rw [eval_insert, ih, eval_cons, mul_assoc]

theorem eq_of_cmp (h : m.cmp n = .eq) : m = n := by
  induction m generalizing n with
  | nil => cases n <;> first | rfl | cases h
  | cons a m ih =>
    cases n with
    | nil => cases h
    | cons b n =>
      rw [cmp, Ordering.then_eq_eq] at h
      rw [Nat.compare_eq_eq.1 h.1, ih h.2]

end Monomial

namespace Poly

variable {p q r : Poly} {m : Monomial} {c : Int} {ts us vs : List (Monomial × Int)}

def sum (ρ : Symbol → Int) (ts : List (Monomial × Int)) : Int :=
  (ts.map fun t => t.2 * t.1.eval ρ).sum

def eval (ρ : Symbol → Int) (p : Poly) : Int := sum ρ p.terms

theorem sum_cons (t : Monomial × Int) : sum ρ (t :: ts) = t.2 * t.1.eval ρ + sum ρ ts := rfl

theorem sum_consTerm : sum ρ (consTerm m c ts) = c * m.eval ρ + sum ρ ts := by
  rw [consTerm]
  split
  case isTrue h => rw [h, zero_mul, zero_add]
  case isFalse => rfl

theorem sum_addTerm (h : addTerm? m c ts = some us) : sum ρ us = sum ρ ts + c * m.eval ρ := by
  induction ts generalizing us with
  | nil =>
    obtain ⟨d, hd, rfl⟩ := Option.map_eq_some_iff.1 h
    obtain ⟨-, rfl⟩ := checked_eq_some_iff.1 hd
    rw [sum_consTerm, add_comm]
  | cons t ts ih =>
    obtain ⟨n, d⟩ := t
    rw [addTerm?] at h
    split at h
    · obtain ⟨_, hd, rfl⟩ := Option.map_eq_some_iff.1 h
      obtain ⟨-, rfl⟩ := checked_eq_some_iff.1 hd
      rw [sum_consTerm, add_comm]
    · rename_i hcmp
      obtain ⟨_, hd, rfl⟩ := Option.map_eq_some_iff.1 h
      obtain ⟨-, rfl⟩ := checked_eq_some_iff.1 hd
      rw [sum_consTerm, sum_cons, Monomial.eq_of_cmp hcmp]
      ring
    · obtain ⟨us, hus, rfl⟩ := Option.map_eq_some_iff.1 h
      rw [sum_cons, sum_cons, ih hus, add_assoc]

theorem sum_addTerms (h : addTerms? ts us = some vs) : sum ρ vs = sum ρ ts + sum ρ us := by
  induction us generalizing ts with
  | nil =>
    obtain rfl := Option.some.inj h
    exact (add_zero _).symm
  | cons t us ih =>
    obtain ⟨ws, hws, h⟩ := Option.bind_eq_some_iff.1 h
    rw [ih h, sum_addTerm hws, sum_cons, add_assoc]

theorem eval_add (h : p.add? q = some r) : r.eval ρ = p.eval ρ + q.eval ρ := by
  obtain ⟨ts, hts, rfl⟩ := Option.map_eq_some_iff.1 h
  exact sum_addTerms hts

theorem eval_scale {k : Int} (h : p.scale? k = some r) : r.eval ρ = k * p.eval ρ := by
  rw [scale?] at h
  split at h
  case isTrue hk =>
    obtain rfl := Option.some.inj h
    rw [hk, zero_mul]
    rfl
  case isFalse =>
    obtain ⟨ts, hts, rfl⟩ := Option.map_eq_some_iff.1 h
    rw [eval, eval]
    clear h
    generalize p.terms = us at hts
    induction us generalizing ts with
    | nil =>
      obtain rfl := Option.some.inj hts
      exact (mul_zero k).symm
    | cons t us ih =>
      rw [List.mapM_cons] at hts
      obtain ⟨u, hu, hts⟩ := Option.bind_eq_some_iff.1 hts
      obtain ⟨vs, hvs, hts⟩ := Option.bind_eq_some_iff.1 hts
      obtain rfl := Option.some.inj hts
      obtain ⟨d, hd, rfl⟩ := Option.map_eq_some_iff.1 hu
      obtain ⟨-, rfl⟩ := checked_eq_some_iff.1 hd
      rw [sum_cons, sum_cons, ih vs hvs]
      ring

theorem eval_neg (h : p.neg? = some r) : r.eval ρ = -p.eval ρ := by
  rw [eval_scale h, neg_one_mul]

theorem eval_sub (h : p.sub? q = some r) : r.eval ρ = p.eval ρ - q.eval ρ := by
  obtain ⟨q', hq, h⟩ := Option.bind_eq_some_iff.1 h
  rw [eval_add h, eval_neg hq, sub_eq_add_neg]

theorem sum_addProduct (h : addProduct? m c ts us = some vs) :
    sum ρ vs = sum ρ us + c * m.eval ρ * sum ρ ts := by
  induction ts generalizing us with
  | nil =>
    obtain rfl := Option.some.inj h
    simp [sum]
  | cons t ts ih =>
    obtain ⟨ws, hws, h⟩ := Option.bind_eq_some_iff.1 h
    obtain ⟨d, hd, hws⟩ := Option.bind_eq_some_iff.1 hws
    obtain ⟨-, rfl⟩ := checked_eq_some_iff.1 hd
    rw [ih h, sum_addTerm hws, sum_cons, Monomial.eval_times]
    ring

theorem eval_mul (h : p.mul? q = some r) : r.eval ρ = p.eval ρ * q.eval ρ := by
  obtain ⟨ts, hts, rfl⟩ := Option.map_eq_some_iff.1 h
  have hfold : ∀ us vs, p.terms.foldlM (fun acc t => addProduct? t.1 t.2 q.terms acc) us = some vs →
      sum ρ vs = sum ρ us + sum ρ p.terms * sum ρ q.terms := by
    generalize p.terms = ts
    induction ts with
    | nil =>
      intro us vs h
      obtain rfl := Option.some.inj h
      simp [sum]
    | cons t ts ih =>
      intro us vs h
      obtain ⟨ws, hws, h⟩ := Option.bind_eq_some_iff.1 h
      rw [ih ws vs h, sum_addProduct hws, sum_cons]
      ring
  rw [eval, eval, eval, hfold [] ts hts]
  exact zero_add _

theorem eval_const (c : Int) : (const c).eval ρ = c := by
  rw [const]
  split
  case isTrue h => exact h.symm
  case isFalse => simp [eval, sum, Monomial.eval]

theorem eval_zero : zero.eval ρ = 0 := rfl

theorem eval_symbol (s : Symbol) : (symbol s).eval ρ = ρ s := by
  simp [symbol, eval, sum, Monomial.eval]

theorem eval_of_const? (h : p.const? = some c) : p.eval ρ = c := by
  rw [const?] at h
  split at h
  · rename_i hp
    rw [eval, hp, ← Option.some.inj h]
    rfl
  · rename_i hp
    rw [eval, hp, ← Option.some.inj h]
    simp [sum, Monomial.eval]
  · cases h

theorem eval_of_isZero (h : p.isZero) : p.eval ρ = 0 := by
  rw [eval, List.isEmpty_iff.1 h]
  rfl

end Poly

end LoopFusion
