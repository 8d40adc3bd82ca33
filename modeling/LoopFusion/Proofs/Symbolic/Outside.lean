import Mathlib.Logic.Equiv.Basic
import LoopFusion.Proofs.Symbolic.Likeness
import LoopFusion.Proofs.Symbolic.Renamed

/-!
Constants and parameters: what is said of them depends on the names that are known only, and whether
a loop between two of them has a trip count does not even depend on those.
-/

namespace LoopFusion

/-- A constant or a parameter. -/
def Value.Outer (v : Value) : Prop := (∃ c, v = .const c) ∨ ∃ k, v = .param k

instance (v : Value) : Decidable v.Outer :=
  match v with
  | .const c => isTrue (.inl ⟨c, rfl⟩)
  | .param k => isTrue (.inr ⟨k, rfl⟩)
  | .inst _ => isFalse (by simp [Value.Outer])

namespace SymbolTable

variable {t u : SymbolTable} {m n : String}

theorem intern_eq_intern_iff (t : SymbolTable) (m n : String) :
    (t.intern m).1 = ((t.intern m).2.intern n).1 ↔ m = n := by
  constructor
  · intro h
    have hm := name?_of_le (intern_le (t.intern m).2 n) (name?_intern t m)
    rw [h, name?_intern] at hm
    exact (Option.some.inj hm).symm
  · rintro rfl
    rw [intern_of_le (le_refl _)]

end SymbolTable

namespace Func

variable {f g : Func} {v : Value} {t u : SymbolTable}

/-- A constant, or the symbol of a value, which gets one if it has none. -/
def poly (f : Func) (v : Value) (t : SymbolTable) : Poly × SymbolTable :=
  match v with
  | .const c => (.const c.toInt, t)
  | v => let named := t.intern (f.symbolName v); (.symbol named.1, named.2)

theorem le_poly (f : Func) (v : Value) (t : SymbolTable) : t ≤ (f.poly v t).2 := by
  cases v with
  | const c => exact SymbolTable.le_refl t
  | _ => exact SymbolTable.intern_le _ _

theorem poly_of_le (h : (f.poly v t).2 ≤ u) : f.poly v u = ((f.poly v t).1, u) := by
  cases v with
  | const c => rfl
  | _ =>
    have hnamed := SymbolTable.intern_of_le h
    simp only [poly, hnamed]

theorem poly_congr (hf : f.params = g.params) (hv : v.Outer) : f.poly v = g.poly v := by
  funext t
  rcases hv with ⟨c, rfl⟩ | ⟨k, rfl⟩
  · rfl
  · simp only [poly, symbolName, valueName, hf]

end Func

theorem Describe.value_outer {f : Func} {v : Value} (hv : v.Outer) (t : LoopForest) (budget : Nat)
    (scope : Option LoopId) (s : Session) : value f t budget v scope s =
      (.invariant (f.poly v s.symbols).1, { s with symbols := (f.poly v s.symbols).2 }) := by
  rcases hv with ⟨c, rfl⟩ | ⟨k, rfl⟩
  · cases budget <;> rfl
  · cases budget <;> rfl

/-- Asking for a value that has its symbol changes nothing. -/
theorem Describe.value_outer_of_le {f : Func} {v : Value} (hv : v.Outer) {u : SymbolTable}
    {s : Session} (h : (f.poly v u).2 ≤ s.symbols) (t : LoopForest) (budget : Nat)
    (scope : Option LoopId) : value f t budget v scope s = (.invariant (f.poly v u).1, s) := by
  rw [value_outer hv, Func.poly_of_le h]

theorem exists_perm {a b a' b' : Symbol} (h : a = b ↔ a' = b') :
    ∃ e : Equiv.Perm Symbol, e a = a' ∧ e b = b' := by
  have hfirst : Equiv.swap a a' a = a' := Equiv.swap_apply_left a a'
  refine ⟨(Equiv.swap a a').trans (Equiv.swap (Equiv.swap a a' b) b'), ?_, ?_⟩
  · rw [Equiv.trans_apply, hfirst]
    by_cases hab : a = b
    · rw [← hab, hfirst, h.1 hab, Equiv.swap_self, Equiv.refl_apply]
    · refine Equiv.swap_apply_of_ne_of_ne (fun he => hab ?_) (mt h.2 hab)
      exact (Equiv.swap a a').injective (hfirst.trans he)
  · rw [Equiv.trans_apply, Equiv.swap_apply_left]

namespace Func

variable {f g : Func} {start bound : Value} {test : Comparison} {step : Int}

/-- How often a loop that counts from `start` up or down to `bound` takes its back edge, and the
names that are known when this has been asked. -/
def count (f : Func) (test : Comparison) (start bound : Value) (step : Int) (t : SymbolTable) :
    Option Poly × SymbolTable :=
  let b := f.poly bound t
  let s := f.poly start b.2
  (tripCount? test s.1 b.1 step, s.2)

theorem count_of_le {t u : SymbolTable} (h : (f.count test start bound step t).2 ≤ u) :
    f.count test start bound step u = ((f.count test start bound step t).1, u) := by
  have hbound := poly_of_le (SymbolTable.le_trans (f.le_poly start (f.poly bound t).2) h)
  simp only [count, hbound, poly_of_le h]

theorem count_congr (hf : f.params = g.params) (hstart : start.Outer) (hbound : bound.Outer) :
    f.count test start bound step = g.count test start bound step := by
  funext t
  simp only [count, poly_congr hf hstart, poly_congr hf hbound]

theorem exists_renamed (f : Func) {v w : Value} (hv : v.Outer) (hw : w.Outer)
    (t t' : SymbolTable) : ∃ e : Equiv.Perm Symbol,
      Poly.Renamed e id (f.poly v t).1 (f.poly v t').1 ∧
      Poly.Renamed e id (f.poly w (f.poly v t).2).1 (f.poly w (f.poly v t').2).1 := by
  rcases hv with ⟨c, rfl⟩ | ⟨k, rfl⟩ <;> rcases hw with ⟨c', rfl⟩ | ⟨k', rfl⟩
  · exact ⟨.refl _, Poly.renamed_const _, Poly.renamed_const _⟩
  · exact ⟨.swap _ _, Poly.renamed_const _, Poly.renamed_symbol (Equiv.swap_apply_left _ _)⟩
  · exact ⟨.swap _ _, Poly.renamed_symbol (Equiv.swap_apply_left _ _), Poly.renamed_const _⟩
  · have hiff := fun t : SymbolTable =>
      t.intern_eq_intern_iff (f.symbolName (.param k)) (f.symbolName (.param k'))
    obtain ⟨e, he, he'⟩ := exists_perm ((hiff t).trans (hiff t').symm)
    exact ⟨e, Poly.renamed_symbol he, Poly.renamed_symbol he'⟩

theorem isSome_count (hstart : start.Outer) (hbound : bound.Outer) (t t' : SymbolTable) :
    (f.count test start bound step t).1.isSome = (f.count test start bound step t').1.isSome := by
  obtain ⟨e, hb, hs⟩ := f.exists_renamed hbound hstart t t'
  have hrel := (Poly.congruence_renamed e.injective Function.injective_id).tripCount? hs hb
    test step
  change Option.Rel _ (f.count test start bound step t).1 (f.count test start bound step t').1 at hrel
  generalize (f.count test start bound step t).1 = x at hrel ⊢
  generalize (f.count test start bound step t').1 = y at hrel ⊢
  cases hrel <;> rfl

end Func

/-- A loop that counts between constants and parameters. -/
theorem Describe.tripCount_outer {f : Func} {t : LoopForest} {l : LoopId} {stay : StayTest}
    (hstay : (t.loop? l).bind (StayTest.ofLoop? f) = some stay) (hstart : stay.iv.start.Outer)
    (hbound : stay.bound.Outer) (s : Session) : tripCount f t l s =
      ((f.count stay.test stay.iv.start stay.bound stay.iv.step s.symbols).1, { s with
        symbols := (f.count stay.test stay.iv.start stay.bound stay.iv.step s.symbols).2 }) := by
  have hrun : ∀ g : Evolution → Evolution → Inquiry (Option Poly), (do
      let bound ← value f t (maxDepth + 1) stay.bound (some l)
      let start ← value f t (maxDepth + 1) stay.iv.start (some l)
      g bound start : Inquiry (Option Poly)) s =
        g (value f t (maxDepth + 1) stay.bound (some l) s).1
          (value f t (maxDepth + 1) stay.iv.start (some l)
            (value f t (maxDepth + 1) stay.bound (some l) s).2).1
          (value f t (maxDepth + 1) stay.iv.start (some l)
            (value f t (maxDepth + 1) stay.bound (some l) s).2).2 := fun _ => rfl
  rw [tripCount, hstay]
  refine (hrun _).trans ?_
  rw [value_outer hbound, value_outer hstart]
  rfl

end LoopFusion
