/-!
Integers that a signed 64-bit word can hold, and the check that keeps results among them.
-/

namespace LoopFusion

/-- The values of a signed 64-bit word. -/
def Fits (x : Int) : Prop := -9223372036854775808 ≤ x ∧ x < 9223372036854775808

instance (x : Int) : Decidable (Fits x) := inferInstanceAs (Decidable (_ ∧ _))

/-- The number itself when a word can hold it. -/
def checked (x : Int) : Option Int := if Fits x then some x else none

theorem checked_eq_some_iff {x y : Int} : checked x = some y ↔ Fits x ∧ x = y := by
  unfold checked
  split <;> simp_all

theorem checked_of_fits {x : Int} (h : Fits x) : checked x = some x :=
  checked_eq_some_iff.2 ⟨h, rfl⟩

/-- The word holding `x`, when there is one. -/
def word? (x : Int) : Option Int64 := if Fits x then some (Int64.ofInt x) else none

end LoopFusion
