/-!
Two tests on linear equations over the integers: divisibility of the constant by the gcd of the
coefficients, and the interval of values that a linear form takes on a box.
-/

namespace LoopFusion.Diophantine

/-- The non-negative gcd of a list of integers, `0` for the empty list. -/
def gcdAll (coeffs : List Int) : Nat := coeffs.foldl (fun g c => Int.gcd g c) 0

/-- Whether the gcd of the coefficients divides the constant. -/
def gcdTest (coeffs : List Int) (constant : Int) : Bool :=
  let g := gcdAll coeffs
  if g = 0 then constant = 0 else constant % g = 0

/-- A variable's coefficient with the range of the variable. -/
structure Term where
  coeff : Int
  lower : Int
  upper : Int

def Term.min (t : Term) : Int := if 0 < t.coeff then t.coeff * t.lower else t.coeff * t.upper

def Term.max (t : Term) : Int := if 0 < t.coeff then t.coeff * t.upper else t.coeff * t.lower

/-- Whether zero lies between the least and the greatest value of `constant + ∑ coeff * x`. -/
def intervalTest (terms : List Term) (constant : Int) : Bool :=
  (terms.foldl (fun s t => s + t.min) constant ≤ 0) &&
    (0 ≤ terms.foldl (fun s t => s + t.max) constant)

/-- Coefficients with their ranges, when every coefficient has one. -/
def terms? : List Int → List Int → List Int → Option (List Term)
  | [], _, _ => some []
  | c :: cs, l :: ls, u :: us => (terms? cs ls us).map (⟨c, l, u⟩ :: ·)
  | _ :: _, _, _ => none

/-- The interval test; a variable without a range may take any value. -/
def banerjeeTest (coeffs : List Int) (constant : Int) (lower upper : List Int) : Bool :=
  match terms? coeffs lower upper with
  | some ts => intervalTest ts constant
  | none => true

end LoopFusion.Diophantine
