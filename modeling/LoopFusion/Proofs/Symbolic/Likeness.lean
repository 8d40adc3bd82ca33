import LoopFusion.Proofs.Alongside
import LoopFusion.Proofs.Symbolic.Gathered

/-!
One function described in two sessions. Descriptions correspond when the answers about operands do,
whatever it means for answers to correspond.
-/

namespace LoopFusion

/-- What arithmetic makes of corresponding polynomials corresponds. -/
structure Poly.Congruence (R : Poly → Poly → Prop) : Prop where
  const : ∀ c, R (.const c) (.const c)
  const? : ∀ {p p'}, R p p' → p.const? = p'.const?
  eq_iff : ∀ {p p' q q'}, R p p' → R q q' → (p = q ↔ p' = q')
  add? : ∀ {p p' q q'}, R p p' → R q q' → Option.Rel R (p.add? q) (p'.add? q')
  neg? : ∀ {p p'}, R p p' → Option.Rel R p.neg? p'.neg?
  mul? : ∀ {p p' k k'}, R p p' → R k k' → k.isNonZero → Option.Rel R (p.mul? k) (p'.mul? k')

namespace Poly

theorem rel_rfl {α : Type} (x : Option α) : Option.Rel (· = ·) x x := by
  cases x with
  | none => exact .none
  | some a => exact .some rfl

theorem eq_of_rel {α : Type} {x y : Option α} (h : Option.Rel (· = ·) x y) : x = y := by
  cases h with
  | none => rfl
  | some h => rw [h]

theorem congruence_eq : Congruence (· = ·) where
  const _ := rfl
  const? := by rintro _ _ rfl; rfl
  eq_iff := by rintro _ _ _ _ rfl rfl; rfl
  add? := by rintro _ _ _ _ rfl rfl; exact rel_rfl _
  neg? := by rintro _ _ rfl; exact rel_rfl _
  mul? := by rintro _ _ _ _ rfl rfl _; exact rel_rfl _

variable {R : Poly → Poly → Prop} {p p' q q' start start' bound bound' : Poly}

theorem Congruence.sub? (hR : Congruence R) (hp : R p p') (hq : R q q') :
    Option.Rel R (p.sub? q) (p'.sub? q') := by
  have hneg := hR.neg? hq
  rw [Poly.sub?, Poly.sub?]
  generalize q.neg? = n at hneg ⊢
  generalize q'.neg? = n' at hneg ⊢
  cases hneg with
  | none => exact .none
  | some hn => exact hR.add? hp hn

theorem Congruence.symbolicSteps? (hR : Congruence R) (hs : R start start') (hb : R bound bound')
    (test : Comparison) (step : Int) : Option.Rel R (LoopFusion.symbolicSteps? test start bound step)
      (LoopFusion.symbolicSteps? test start' bound' step) := by
  unfold LoopFusion.symbolicSteps?
  have hup := hR.sub? hb hs
  have hdown := hR.sub? hs hb
  generalize bound.sub? start = up at hup ⊢
  generalize bound'.sub? start' = up' at hup ⊢
  generalize start.sub? bound = down at hdown ⊢
  generalize start'.sub? bound' = down' at hdown ⊢
  cases hup with
  | none => exact .none
  | some hup =>
    cases hdown with
    | none => exact .none
    | some hdown =>
      simp only [Option.bind_eq_bind, Option.bind_some]
      split
      · exact .some hup
      · exact .some hup
      · exact hR.add? hup (hR.const 1)
      · exact .some hdown
      · exact .some hdown
      · exact hR.add? hdown (hR.const 1)
      · exact .none

theorem Congruence.tripCount? (hR : Congruence R) (hs : R start start') (hb : R bound bound')
    (test : Comparison) (step : Int) : Option.Rel R (LoopFusion.tripCount? test start bound step)
      (LoopFusion.tripCount? test start' bound' step) := by
  unfold LoopFusion.tripCount?
  rw [← hR.const? hs, ← hR.const? hb]
  split
  · cases stepsWhile? test _ _ step with
    | none => exact .none
    | some n => exact .some (hR.const n)
  · exact hR.symbolicSteps? hs hb test step

end Poly

/-- Two evolutions of one form with corresponding parts. -/
inductive Evolution.Alike (R : Poly → Poly → Prop) : Evolution → Evolution → Prop
  | invariant {p p' : Poly} : R p p' → Alike R (.invariant p) (.invariant p')
  | recurrence {s s' d d' : Poly} (l : LoopId) : R s s' → R d d' →
    Alike R (.recurrence s d l) (.recurrence s' d' l)
  | unknown : Alike R .unknown .unknown

theorem Evolution.Alike.refl (x : Evolution) : x.Alike (· = ·) x := by
  cases x with
  | invariant p => exact .invariant rfl
  | recurrence s d l => exact .recurrence l rfl rfl
  | unknown => exact .unknown

namespace Operation

/-- The operands that a description of arithmetic is folded from. -/
def folded : Operation → List Value
  | .binary _ l r => [l, r]
  | .gep base offset => [base, offset]
  | _ => []

end Operation

namespace Describe

open Inquiry

variable {f : Func} {t : LoopForest} {A : Accord} {R : Poly → Poly → Prop}
  {E : Option LoopId → Value → Evolution → Evolution → Prop} {scope : Option LoopId} {i : InstId}
  {entry : Inst} {v : Value} {eval eval' : Value → Inquiry Evolution} {x x' : Evolution}

/-- To describe the instruction `i` from the scope is to describe `v` first. -/
inductive Looks (f : Func) (t : LoopForest) (scope : Option LoopId) (i : InstId) : Value → Prop
  | folded {entry : Inst} {v : Value} : f.inst? i = some entry →
    standing t scope entry.block ≠ .elsewhere → v ∈ entry.op.folded → Looks f t scope i v
  | start {entry : Inst} {l : LoopId} {iv : InductionVariable} : f.inst? i = some entry →
    entry.op.isPhi → standing t scope entry.block = .within l →
      (t.loop? l).bind (·.iv?) = some iv → iv.phi = i → Looks f t scope i iv.start

/-- A way for answers to correspond that every step of a description respects. -/
structure Likeness (f : Func) (t : LoopForest) (A : Accord) (R : Poly → Poly → Prop)
    (E : Option LoopId → Value → Evolution → Evolution → Prop) : Prop where
  alike : ∀ {scope v x x'}, E scope v x x' → x.Alike R x'
  const : ∀ scope c, E scope (.const c) (.invariant (.const c.toInt)) (.invariant (.const c.toInt))
  unknown : ∀ scope v, E scope v .unknown .unknown
  symbol : ∀ {scope v}, v.const? = none → (∀ i, v = .inst i → ∃ entry, f.inst? i = some entry ∧
      standing t scope entry.block = .before) →
    Alongside A (E scope v) (do return .invariant (← f.unknown v))
      (do return .invariant (← f.unknown v))
  binary : ∀ {scope i op l r x x' y y'}, f.op? i = some (.binary op l r) → E scope l x x' →
    E scope r y y' → E scope (.inst i) (.apply op x y) (.apply op x' y')
  gep : ∀ {scope i base offset x x' y y'}, f.op? i = some (.gep base offset) →
    E scope base x x' → E scope offset y y' → E scope (.inst i) (x.add y) (x'.add y')
  phi : ∀ {scope i entry l iv p p'}, f.inst? i = some entry →
    standing t scope entry.block = .within l → (t.loop? l).bind (·.iv?) = some iv → iv.phi = i →
      E scope iv.start (.invariant p) (.invariant p') →
        E scope (.inst i) (.recur p (.const iv.step) l) (.recur p' (.const iv.step) l)

section

variable (hE : Likeness f t A R E) (hgrow : ∀ v, (eval v).Grows) (hgrow' : ∀ v, (eval' v).Grows)

include hE hgrow hgrow'

theorem alongside_combine (hi : f.inst? i = some entry)
    (he : ∀ v ∈ entry.op.folded, Alongside A (E scope v) (eval v) (eval' v)) :
    Alongside A (E scope (.inst i)) (combine eval entry.op) (combine eval' entry.op) := by
  have hop : f.op? i = some entry.op := by rw [Func.op?, hi, Option.map_some]
  generalize entry.op = o at hop he
  cases o with
  | binary op l r =>
    exact (he l (by simp [Operation.folded])).bind
      (fun _ => (hgrow r).bind fun _ => grows_pure _)
      (fun _ => (hgrow' r).bind fun _ => grows_pure _)
      fun x x' hx => (he r (by simp [Operation.folded])).bind (fun _ => grows_pure _)
        (fun _ => grows_pure _) fun y y' hy => alongside_pure (hE.binary hop hx hy)
  | gep base offset =>
    exact (he base (by simp [Operation.folded])).bind
      (fun _ => (hgrow offset).bind fun _ => grows_pure _)
      (fun _ => (hgrow' offset).bind fun _ => grows_pure _)
      fun x x' hx => (he offset (by simp [Operation.folded])).bind (fun _ => grows_pure _)
        (fun _ => grows_pure _) fun y y' hy => alongside_pure (hE.gep hop hx hy)
  | _ => exact alongside_pure (hE.unknown scope _)

theorem alongside_fixed (hi : f.inst? i = some entry)
    (hst : standing t scope entry.block = .before)
    (he : ∀ v ∈ entry.op.folded, Alongside A (E scope v) (eval v) (eval' v)) :
    Alongside A (E scope (.inst i)) (fixed f eval i entry.op) (fixed f eval' i entry.op) := by
  have hsymbol : Alongside A (E scope (.inst i)) (do return .invariant (← f.unknown (.inst i)))
      (do return .invariant (← f.unknown (.inst i))) :=
    hE.symbol rfl fun j hj => ⟨entry, Value.inst.inj hj ▸ hi, hst⟩
  refine (alongside_combine hE hgrow hgrow' hi he).bind_same (fun x => ?_) fun x x' hx => ?_
  · cases x with
    | invariant p => exact grows_pure _
    | _ => exact (grows_unknown f _).bind fun _ => grows_pure _
  · cases hE.alike hx with
    | invariant hp => exact alongside_pure hx
    | recurrence l hs hd => exact hsymbol
    | unknown => exact hsymbol

theorem alongside_moving {l : LoopId} (hi : f.inst? i = some entry)
    (hst : standing t scope entry.block = .within l)
    (he : ∀ v, Looks f t scope i v → Alongside A (E scope v) (eval v) (eval' v)) :
    Alongside A (E scope (.inst i)) (moving t eval l i entry.op) (moving t eval' l i entry.op) := by
  have hfold : ∀ v ∈ entry.op.folded, Alongside A (E scope v) (eval v) (eval' v) := fun v hv =>
    he v (.folded hi (by rw [hst]; nofun) hv)
  cases hop : entry.op with
  | phi incoming =>
    rw [moving, moving]
    cases hiv : (t.loop? l).bind (·.iv?) with
    | none => exact alongside_pure (hE.unknown scope _)
    | some iv =>
      dsimp only
      split
      case isFalse => exact alongside_pure (hE.unknown scope _)
      case isTrue hphi =>
        refine (he iv.start (.start hi (by rw [hop]; rfl) hst hiv hphi)).bind_same (fun x => ?_)
          fun x x' hx => ?_
        · cases x <;> exact grows_pure _
        · cases hE.alike hx with
          | invariant hp => exact alongside_pure (hE.phi hi hst hiv hphi hx)
          | recurrence l hs hd => exact alongside_pure (hE.unknown scope _)
          | unknown => exact alongside_pure (hE.unknown scope _)
  | _ =>
    have hcombine := alongside_combine hE hgrow hgrow' hi hfold
    rw [hop] at hcombine
    exact hcombine

theorem alongside_inst (hi : f.inst? i = some entry)
    (he : ∀ v, Looks f t scope i v → Alongside A (E scope v) (eval v) (eval' v)) :
    Alongside A (E scope (.inst i)) (inst f t eval scope i entry) (inst f t eval' scope i entry) := by
  unfold inst
  split
  case h_1 hst =>
    exact alongside_fixed hE hgrow hgrow' hi hst fun v hv =>
      he v (.folded hi (by rw [hst]; nofun) hv)
  case h_2 l hst => exact alongside_moving hE hgrow hgrow' hi hst he
  case h_3 => exact alongside_pure (hE.unknown scope _)

end

/-- Remembered answers correspond, each with an answer for the same question. -/
structure Recall (A : Accord) (E : Option LoopId → Value → Evolution → Evolution → Prop) : Prop where
  hit : ∀ {s s'}, A.rel s s' → ∀ i scope,
    Option.Rel (E scope (.inst i)) (s.remembered? i scope) (s'.remembered? i scope)
  remember : ∀ {i scope x x'}, E scope (.inst i) x x' →
    Alongside A (· = ·) (Inquiry.remember i scope x) (Inquiry.remember i scope x')

theorem alongside_value (hE : Likeness f t A R E) (hA : Recall A E) (budget : Nat) (v : Value)
    (scope : Option LoopId) :
    Alongside A (E scope v) (value f t budget v scope) (value f t budget v scope) := by
  have hparam : ∀ k, Alongside A (E scope (.param k)) (do return .invariant (← f.unknown (.param k)))
      (do return .invariant (← f.unknown (.param k))) := fun k => hE.symbol rfl nofun
  induction budget generalizing v with
  | zero =>
    cases v with
    | const c => exact alongside_pure (hE.const scope c)
    | param k => exact hparam k
    | inst i => exact alongside_pure (hE.unknown scope _)
  | succ budget ih =>
    cases v with
    | const c => exact alongside_pure (hE.const scope c)
    | param k => exact hparam k
    | inst i =>
      intro s s' hrel hroom
      have hhit := hA.hit hrel i scope
      rw [value_inst] at hroom ⊢
      rw [value_inst] at hroom ⊢
      generalize hs : s.remembered? i scope = known at hhit hroom ⊢
      generalize hs' : s'.remembered? i scope = known' at hhit hroom ⊢
      cases hhit with
      | some h => exact ⟨h, hrel⟩
      | none =>
        cases hi : f.inst? i with
        | none => exact ⟨hE.unknown scope _, hrel⟩
        | some entry =>
          rw [hi] at hroom
          have hgrow := fun v => grows_value f t budget v scope
          have hkeep : ∀ x, (do
              Inquiry.remember i scope x
              return x : Inquiry Evolution).Grows := fun x =>
            (grows_remember i scope x).bind fun _ => grows_pure _
          exact (alongside_inst hE hgrow hgrow hi fun v _ => ih v).bind hkeep hkeep
            (fun x x' hx => (hA.remember hx).bind (fun _ => grows_pure _) (fun _ => grows_pure _)
              fun _ _ _ => alongside_pure hx) s s' hrel hroom

theorem alongside_tripCount (hR : Poly.Congruence R)
    (hv : ∀ v scope, Alongside A (Evolution.Alike R) (value f t (maxDepth + 1) v scope)
      (value f t (maxDepth + 1) v scope)) (l : LoopId) :
    Alongside A (Option.Rel R) (tripCount f t l) (tripCount f t l) := by
  unfold tripCount
  split
  case h_1 => exact alongside_pure .none
  case h_2 stay _ =>
    refine (hv stay.bound (some l)).bind₂ (hv stay.iv.start (some l)) (grows_value f t _ _ _)
      (fun b s => ?_) fun b b' s s' hb hs => ?_
    · cases b <;> cases s <;> exact grows_pure _
    · cases hb with
      | invariant hb =>
        cases hs with
        | invariant hs => exact alongside_pure (hR.tripCount? hs hb _ _)
        | recurrence => exact alongside_pure .none
        | unknown => exact alongside_pure .none
      | recurrence => cases hs <;> exact alongside_pure .none
      | unknown => cases hs <;> exact alongside_pure .none

end Describe

end LoopFusion
