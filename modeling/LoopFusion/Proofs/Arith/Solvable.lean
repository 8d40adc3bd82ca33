import Mathlib.Data.Int.GCD
import Mathlib.Tactic.Ring
import LoopFusion.Arith.Diophantine

/-!
A linear equation has an integer solution if and only if the gcd of the coefficients divides the
constant, whatever the coefficients are. Without any, and with zeros only, the gcd is zero, and only
the constant zero is left.
-/

namespace LoopFusion.Diophantine

/-- The value of a linear form. -/
def form (coeffs xs : List Int) : Int := (List.zipWith (· * ·) coeffs xs).sum

@[simp] theorem form_nil (xs : List Int) : form [] xs = 0 := rfl

@[simp] theorem form_cons (a x : Int) (coeffs xs : List Int) :
    form (a :: coeffs) (x :: xs) = a * x + form coeffs xs := List.sum_cons

/-- The form with these coefficients takes the value `c`. -/
def Solvable (coeffs : List Int) (c : Int) : Prop :=
  ∃ xs : List Int, xs.length = coeffs.length ∧ form coeffs xs = c

variable {coeffs : List Int} {a b c x y : Int}

/-- What two coefficients can make is what their gcd can make alone. -/
theorem exists_mul_gcd_iff (g : Nat) (a z : Int) :
    (∃ x, Int.gcd g a * x = z) ↔ ∃ x y, g * x + a * y = z := by
  constructor
  · rintro ⟨x, rfl⟩
    refine ⟨Int.gcdA g a * x, Int.gcdB g a * x, ?_⟩
    rw [Int.gcd_eq_gcd_ab]
    ring
  · rintro ⟨x, y, rfl⟩
    obtain ⟨k, hk⟩ := Int.dvd_add (Dvd.dvd.mul_right (Int.gcd_dvd_left g a) x)
      (Dvd.dvd.mul_right (Int.gcd_dvd_right g a) y)
    exact ⟨k, hk.symm⟩

/-- The coefficients are taken up one after the other, `g` stands for those before. -/
theorem foldl_gcd_dvd_iff (g : Nat) (coeffs : List Int) (c : Int) :
    ((coeffs.foldl (fun g a => Int.gcd g a) g : Nat) : Int) ∣ c ↔
      ∃ x xs, xs.length = coeffs.length ∧ g * x + form coeffs xs = c := by
  induction coeffs generalizing g c with
  | nil =>
    constructor
    · rintro ⟨x, rfl⟩
      exact ⟨x, [], rfl, add_zero _⟩
    · rintro ⟨x, xs, -, rfl⟩
      exact ⟨x, add_zero _⟩
  | cons a coeffs ih =>
    rw [List.foldl_cons, ih]
    constructor
    · rintro ⟨z, xs, hlen, rfl⟩
      obtain ⟨x, y, hxy⟩ := (exists_mul_gcd_iff g a _).1 ⟨z, rfl⟩
      refine ⟨x, y :: xs, congrArg Nat.succ hlen, ?_⟩
      rw [form_cons, ← add_assoc, hxy]
    · rintro ⟨x, xs, hlen, rfl⟩
      obtain ⟨y, xs, rfl⟩ := List.exists_cons_of_length_eq_add_one hlen
      obtain ⟨z, hz⟩ := (exists_mul_gcd_iff g a _).2 ⟨x, y, rfl⟩
      refine ⟨z, xs, Nat.succ.inj hlen, ?_⟩
      rw [form_cons, ← add_assoc, hz]

theorem gcdAll_dvd_iff : (gcdAll coeffs : Int) ∣ c ↔ Solvable coeffs c := by
  simp only [gcdAll, foldl_gcd_dvd_iff, Solvable, Nat.cast_zero, zero_mul, zero_add,
    exists_const]

theorem gcdTest_iff_dvd : gcdTest coeffs c ↔ (gcdAll coeffs : Int) ∣ c := by
  rw [gcdTest]
  split
  case isTrue h0 => rw [h0, Nat.cast_zero, zero_dvd_iff, decide_eq_true_iff]
  case isFalse => rw [decide_eq_true_iff, Int.dvd_iff_emod_eq_zero]

theorem gcdTest_pair (h : a * x + b * y = c) : gcdTest [a, b] c := by
  apply gcdTest_iff_dvd.2
  apply gcdAll_dvd_iff.2
  refine ⟨[x, y], rfl, ?_⟩
  rw [← h, form_cons, form_cons, form_nil, add_zero]

end LoopFusion.Diophantine
