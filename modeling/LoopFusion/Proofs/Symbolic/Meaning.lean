import LoopFusion.Proofs.Symbolic.PolyValue
import LoopFusion.Symbolic.Evolution

/-!
What an evolution says of a value on a round of its loop. Arithmetic on evolutions says of the
results what it says of the operands.
-/

namespace LoopFusion.Evolution

variable {ρ : Symbol → Int} {k x y : Int} {l : LoopId} {a b : Evolution} {p q : Option Poly}
  {s t : Poly}

/-- On round `k` the value is `x`, as the evolution says. -/
def Holds (ρ : Symbol → Int) (k x : Int) : Evolution → Prop
  | invariant p => x = p.eval ρ
  | recurrence s t _ => x = s.eval ρ + t.eval ρ * k
  | unknown => True

theorem holds_ofInvariant (h : ∀ r, p = some r → x = r.eval ρ) :
    (ofInvariant? p).Holds ρ k x := by
  cases p with
  | none => trivial
  | some r => exact h r rfl

theorem holds_recur (h : x = s.eval ρ + t.eval ρ * k) : (recur s t l).Holds ρ k x := by
  rw [recur]
  split
  case isTrue ht =>
    rw [Poly.eval_of_isZero ht, zero_mul, add_zero] at h
    exact h
  case isFalse => exact h

theorem holds_ofRecurrence
    (h : ∀ s t, p = some s → q = some t → x = s.eval ρ + t.eval ρ * k) :
    (ofRecurrence? p q l).Holds ρ k x := by
  unfold ofRecurrence?
  split
  · exact holds_recur (h _ _ rfl rfl)
  · trivial

theorem Holds.add (ha : a.Holds ρ k x) (hb : b.Holds ρ k y) : (a.add b).Holds ρ k (x + y) := by
  cases a with
  | unknown => trivial
  | invariant p =>
    cases b with
    | unknown => trivial
    | invariant q =>
      refine holds_ofInvariant fun r hr => ?_
      rw [Poly.eval_add hr, ha, hb]
    | recurrence s t l =>
      refine holds_ofRecurrence fun s' t' hs ht => ?_
      obtain rfl := Option.some.inj ht
      rw [Poly.eval_add hs, ha, hb]
      ring
  | recurrence s t l =>
    cases b with
    | unknown => trivial
    | invariant q =>
      refine holds_ofRecurrence fun s' t' hs ht => ?_
      obtain rfl := Option.some.inj ht
      rw [Poly.eval_add hs, ha, hb]
      ring
    | recurrence s' t' l' =>
      rw [Evolution.add]
      split
      · refine holds_ofRecurrence fun u w hu hw => ?_
        rw [Poly.eval_add hu, Poly.eval_add hw, ha, hb]
        ring
      · trivial

theorem Holds.neg (ha : a.Holds ρ k x) : a.neg.Holds ρ k (-x) := by
  cases a with
  | unknown => trivial
  | invariant p =>
    refine holds_ofInvariant fun r hr => ?_
    rw [Poly.eval_neg hr, ha]
  | recurrence s t l =>
    refine holds_ofRecurrence fun s' t' hs ht => ?_
    rw [Poly.eval_neg hs, Poly.eval_neg ht, ha]
    ring

theorem Holds.sub (ha : a.Holds ρ k x) (hb : b.Holds ρ k y) : (a.sub b).Holds ρ k (x - y) := by
  rw [sub_eq_add_neg]
  exact ha.add hb.neg

theorem Holds.mul (ha : a.Holds ρ k x) (hb : b.Holds ρ k y) : (a.mul b).Holds ρ k (x * y) := by
  cases a with
  | unknown => trivial
  | invariant p =>
    cases b with
    | unknown => trivial
    | invariant q =>
      refine holds_ofInvariant fun r hr => ?_
      rw [Poly.eval_mul hr, ha, hb]
    | recurrence s t l =>
      refine holds_ofRecurrence fun s' t' hs ht => ?_
      rw [Poly.eval_mul hs, Poly.eval_mul ht, ha, hb]
      ring
  | recurrence s t l =>
    cases b with
    | invariant q =>
      refine holds_ofRecurrence fun s' t' hs ht => ?_
      rw [Poly.eval_mul hs, Poly.eval_mul ht, ha, hb]
      ring
    | _ => trivial

/-- The loop of a recurrence. -/
def loop? : Evolution → Option LoopId
  | recurrence _ _ l => some l
  | _ => none

variable {l' : LoopId}

@[simp] theorem loop?_ofInvariant : (ofInvariant? p).loop? = none := by cases p <;> rfl

theorem loop?_recur (h : (recur s t l).loop? = some l') : l = l' := by
  rw [recur] at h
  split at h
  · cases h
  · exact Option.some.inj h

theorem loop?_ofRecurrence (h : (ofRecurrence? p q l).loop? = some l') : l = l' := by
  unfold ofRecurrence? at h
  split at h
  · exact loop?_recur h
  · cases h

/-- Arithmetic makes no recurrences of other loops. -/
theorem loop?_add (h : (a.add b).loop? = some l) : a.loop? = some l ∨ b.loop? = some l := by
  cases a with
  | unknown => cases h
  | invariant p =>
    cases b with
    | unknown => cases h
    | invariant q => simp [add] at h
    | recurrence s t l' => exact .inr (congrArg some (loop?_ofRecurrence h))
  | recurrence s t l' =>
    cases b with
    | unknown => cases h
    | invariant q => exact .inl (congrArg some (loop?_ofRecurrence h))
    | recurrence s' t' l'' =>
      rw [add] at h
      split at h
      · exact .inl (congrArg some (loop?_ofRecurrence h))
      · cases h

theorem loop?_neg (h : a.neg.loop? = some l) : a.loop? = some l := by
  cases a with
  | unknown => cases h
  | invariant p => simp [neg] at h
  | recurrence s t l' => exact congrArg some (loop?_ofRecurrence h)

theorem loop?_mul (h : (a.mul b).loop? = some l) : a.loop? = some l ∨ b.loop? = some l := by
  cases a with
  | unknown => cases h
  | invariant p =>
    cases b with
    | unknown => cases h
    | invariant q => simp [mul] at h
    | recurrence s t l' => exact .inr (congrArg some (loop?_ofRecurrence h))
  | recurrence s t l' =>
    cases b with
    | invariant q => exact .inl (congrArg some (loop?_ofRecurrence h))
    | _ => cases h

theorem loop?_apply {op : BinaryOp} (h : (apply op a b).loop? = some l) :
    a.loop? = some l ∨ b.loop? = some l := by
  cases op with
  | add => exact loop?_add h
  | sub => exact (loop?_add h).imp_right loop?_neg
  | mul => exact loop?_mul h

end LoopFusion.Evolution
