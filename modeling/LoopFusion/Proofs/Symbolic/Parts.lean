import LoopFusion.Proofs.Symbolic.Sound

/-!
The polynomials in an answer. They come from numbers and names by arithmetic, so that all of them
have what numbers and names have and arithmetic keeps.
-/

namespace LoopFusion

/-- Numbers and names satisfy `P`, and arithmetic keeps it. -/
structure Poly.Closed (P : Poly → Prop) : Prop where
  const : ∀ c, Fits c → P (.const c)
  symbol : ∀ s, P (.symbol s)
  add : ∀ {p q r}, P p → P q → p.add? q = some r → P r
  neg : ∀ {p r}, P p → p.neg? = some r → P r
  mul : ∀ {p q r}, P p → P q → p.mul? q = some r → P r

namespace Evolution

variable {P : Poly → Prop} {x y : Evolution} {s d : Poly} {a b : Option Poly} {l : LoopId}

def All (P : Poly → Prop) : Evolution → Prop
  | invariant p => P p
  | recurrence s d _ => P s ∧ P d
  | unknown => True

theorem all_ofInvariant (h : ∀ p, a = some p → P p) : (ofInvariant? a).All P := by
  cases a with
  | none => trivial
  | some p => exact h p rfl

theorem all_recur (hs : P s) (hd : P d) (l : LoopId) : (recur s d l).All P := by
  unfold recur
  split
  · exact hs
  · exact ⟨hs, hd⟩

theorem all_ofRecurrence (ha : ∀ p, a = some p → P p) (hb : ∀ p, b = some p → P p) (l : LoopId) :
    (ofRecurrence? a b l).All P := by
  cases a with
  | none => trivial
  | some s =>
    cases b with
    | none => trivial
    | some d => exact all_recur (ha s rfl) (hb d rfl) l

section

variable (hP : Poly.Closed P)

include hP

theorem All.add (hx : x.All P) (hy : y.All P) : (x.add y).All P := by
  have hkeep : ∀ {p : Poly}, P p → ∀ r, some p = some r → P r := fun hp _ h =>
    Option.some.inj h ▸ hp
  cases x with
  | unknown => cases y <;> trivial
  | invariant p =>
    cases y with
    | unknown => trivial
    | invariant q => exact all_ofInvariant fun _ => hP.add hx hy
    | recurrence s d l => exact all_ofRecurrence (fun _ => hP.add hy.1 hx) (hkeep hy.2) l
  | recurrence s d l =>
    cases y with
    | unknown => trivial
    | invariant q => exact all_ofRecurrence (fun _ => hP.add hx.1 hy) (hkeep hx.2) l
    | recurrence s' d' l' =>
      rw [Evolution.add]
      split
      · exact all_ofRecurrence (fun _ => hP.add hx.1 hy.1) (fun _ => hP.add hx.2 hy.2) l
      · trivial

theorem All.neg (hx : x.All P) : x.neg.All P := by
  cases x with
  | unknown => trivial
  | invariant p => exact all_ofInvariant fun _ => hP.neg hx
  | recurrence s d l => exact all_ofRecurrence (fun _ => hP.neg hx.1) (fun _ => hP.neg hx.2) l

theorem All.mul (hx : x.All P) (hy : y.All P) : (x.mul y).All P := by
  cases x with
  | unknown => cases y <;> trivial
  | invariant p =>
    cases y with
    | unknown => trivial
    | invariant q => exact all_ofInvariant fun _ => hP.mul hx hy
    | recurrence s d l =>
      exact all_ofRecurrence (fun _ => hP.mul hy.1 hx) (fun _ => hP.mul hy.2 hx) l
  | recurrence s d l =>
    cases y with
    | unknown => trivial
    | invariant q => exact all_ofRecurrence (fun _ => hP.mul hx.1 hy) (fun _ => hP.mul hx.2 hy) l
    | recurrence => trivial

theorem All.apply (op : BinaryOp) (hx : x.All P) (hy : y.All P) :
    (Evolution.apply op x y).All P := by
  cases op with
  | add => exact hx.add hP hy
  | sub => exact hx.add hP (hy.neg hP)
  | mul => exact hx.mul hP hy

end

end Evolution

theorem Describe.Gives.all {f : Func} {σ : SymbolTable} {scope : Option LoopId} {v : Value}
    {x : Evolution} {P : Poly → Prop} (hP : Poly.Closed P) (h : Gives f σ scope v x) :
    x.All P := by
  induction h with
  | const c => exact hP.const _ (fits_toInt c)
  | unknown => trivial
  | symbol => exact hP.symbol _
  | binary _ _ _ hx hy => exact hx.apply hP _ hy
  | gep _ _ _ hx hy => exact hx.add hP hy
  | phi hl _ hiv _ hstart =>
    obtain ⟨pre, latch, -, -, hcounter⟩ := LoopForest.exists_counter hl hiv
    exact Evolution.all_recur hstart (hP.const _ hcounter.fits_step) _

end LoopFusion
