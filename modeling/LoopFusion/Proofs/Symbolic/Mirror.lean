import LoopFusion.Proofs.Symbolic.Gathered

/-!
Two functions in which a value is computed in the same way. The answers about it are the same, up to
the number of the loop, when the second question finds all names that the first one has given.
-/

namespace LoopFusion

namespace Evolution

variable {l l' : LoopId} {a a' b b' : Evolution}

/-- The same evolution, in the loop `l` and in the loop `l'`. -/
inductive Twin (l l' : LoopId) : Evolution → Evolution → Prop
  | invariant (p : Poly) : Twin l l' (.invariant p) (.invariant p)
  | recurrence (s t : Poly) : Twin l l' (.recurrence s t l) (.recurrence s t l')
  | unknown : Twin l l' .unknown .unknown

namespace Twin

theorem recur (s t : Poly) : Twin l l' (.recur s t l) (.recur s t l') := by
  unfold Evolution.recur
  split
  · exact .invariant s
  · exact .recurrence s t

theorem ofInvariant? (p : Option Poly) : Twin l l' (.ofInvariant? p) (.ofInvariant? p) := by
  cases p with
  | none => exact .unknown
  | some p => exact .invariant p

theorem ofRecurrence? (s t : Option Poly) :
    Twin l l' (.ofRecurrence? s t l) (.ofRecurrence? s t l') := by
  unfold Evolution.ofRecurrence?
  split
  · exact .recur _ _
  · exact .unknown

theorem add (ha : Twin l l' a a') (hb : Twin l l' b b') : Twin l l' (a.add b) (a'.add b') := by
  cases ha <;> cases hb <;> simp only [Evolution.add, if_true] <;>
    first | exact .ofInvariant? _ | exact .ofRecurrence? _ _ | exact .unknown

theorem neg (ha : Twin l l' a a') : Twin l l' a.neg a'.neg := by
  cases ha
  · exact .ofInvariant? _
  · exact .ofRecurrence? _ _
  · exact .unknown

theorem mul (ha : Twin l l' a a') (hb : Twin l l' b b') : Twin l l' (a.mul b) (a'.mul b') := by
  cases ha <;> cases hb <;> simp only [Evolution.mul] <;>
    first | exact .ofInvariant? _ | exact .ofRecurrence? _ _ | exact .unknown

theorem apply (op : BinaryOp) (ha : Twin l l' a a') (hb : Twin l l' b b') :
    Twin l l' (.apply op a b) (.apply op a' b') := by
  cases op with
  | add => exact ha.add hb
  | sub => exact ha.add hb.neg
  | mul => exact ha.mul hb

end Twin

end Evolution

namespace Inquiry

open Evolution (Twin)

variable {α β γ δ : Type} {l l' : LoopId} {R : α → β → Prop} {R' : γ → δ → Prop}

/-- What the sessions remember from inside the two loops is the same. -/
def Matched (l l' : LoopId) (s s' : Session) : Prop :=
  ∀ i, Option.Rel (Twin l l') (s.remembered? i (some l)) (s'.remembered? i (some l'))

/-- Asked in a session that knows all names which the first question gives, the second one has a
related answer. -/
def Mirrors (l l' : LoopId) (R : α → β → Prop) (q : Inquiry α) (q' : Inquiry β) : Prop :=
  ∀ s s', Matched l l' s s' → (q s).2.symbols ≤ s'.symbols →
    R (q s).1 (q' s').1 ∧ (q' s').2.symbols = s'.symbols ∧ Matched l l' (q s).2 (q' s').2

theorem mirrors_pure {a : α} {b : β} (h : R a b) : Mirrors l l' R (pure a) (pure b) :=
  fun _ _ hm _ => ⟨h, rfl, hm⟩

theorem Mirrors.bind {q : Inquiry α} {q' : Inquiry β} {g : α → Inquiry γ} {g' : β → Inquiry δ}
    (hq : Mirrors l l' R q q') (hgrow : ∀ a, (g a).Grows)
    (hg : ∀ a b, R a b → Mirrors l l' R' (g a) (g' b)) :
    Mirrors l l' R' (q >>= g) (q' >>= g') := by
  intro s s' hm hle
  have hle' := SymbolTable.le_trans (hgrow (q s).1 (q s).2) hle
  obtain ⟨hr, hs, hm'⟩ := hq s s' hm hle'
  obtain ⟨hr', hs', hm''⟩ := hg _ _ hr (q s).2 (q' s').2 hm' (by rw [hs]; exact hle)
  exact ⟨hr', hs'.trans hs, hm''⟩

theorem mirrors_intern (n : String) : Mirrors l l' (· = ·) (intern n) (intern n) := by
  intro s s' hm hle
  have h := SymbolTable.intern_of_le (u := s'.symbols) (t := s.symbols) (n := n) hle
  have hq : intern n s' = ((s'.symbols.intern n).1, { s' with symbols := (s'.symbols.intern n).2 }) :=
    rfl
  rw [hq, h]
  exact ⟨rfl, rfl, hm⟩

theorem mirrors_remember (i : InstId) {e e' : Evolution} (he : Twin l l' e e') :
    Mirrors l l' (· = ·) (remember i (some l) e) (remember i (some l') e') := by
  intro s s' hm hle
  refine ⟨rfl, rfl, fun j => ?_⟩
  simp only [remembered?_remember, and_true]
  split
  · exact .some he
  · exact hm j

end Inquiry

namespace Describe

open Inquiry Evolution

/-- The same standing, from inside the loop `l` and from inside the loop `l'`. -/
inductive Standing.Twin (l l' : LoopId) : Standing → Standing → Prop
  | before : Twin l l' .before .before
  | within : Twin l l' (.within l) (.within l')
  | elsewhere : Twin l l' .elsewhere .elsewhere

/-- The values in `S` are computed in `f'`, as seen from inside `l'`, as they are in `f`, as seen
from inside `l`. The entries of phis are of no interest. -/
structure Copies (f f' : Func) (t t' : LoopForest) (l l' : LoopId) (S : Value → Prop) : Prop where
  param : ∀ k, f'.symbolName (.param k) = f.symbolName (.param k)
  name : ∀ i, S (.inst i) → f'.symbolName (.inst i) = f.symbolName (.inst i)
  inst : ∀ i, S (.inst i) → ∃ entry entry', f.inst? i = some entry ∧ f'.inst? i = some entry' ∧
    (entry'.op = entry.op ∨ entry'.op.isPhi ∧ entry.op.isPhi) ∧
    Standing.Twin l l' (standing t (some l) entry.block) (standing t' (some l') entry'.block)
  operands : ∀ i, S (.inst i) → ∀ op, f.op? i = some op → ¬ op.isPhi → ∀ v ∈ op.operands, S v
  counter : (t'.loop? l').bind (·.iv?) = (t.loop? l).bind (·.iv?)
  start : ∀ iv, (t.loop? l).bind (·.iv?) = some iv → S iv.start

variable {f f' : Func} {t t' : LoopForest} {l l' : LoopId} {S : Value → Prop}
  {eval eval' : Value → Inquiry Evolution}

theorem mirrors_unknown {v : Value} (h : f'.symbolName v = f.symbolName v) :
    Mirrors l l' (· = ·) (f.unknown v) (f'.unknown v) := by
  unfold Func.unknown
  rw [h]
  exact (mirrors_intern _).bind (fun _ => grows_pure _)
    fun a b hab => mirrors_pure (congrArg Poly.symbol hab)

section

variable {i : InstId} {op op' : Operation} (h : op' = op ∨ op'.isPhi ∧ op.isPhi)

include h

theorem fixed_congr : fixed f eval i op' = fixed f eval i op := by
  rcases h with rfl | ⟨hp', hp⟩
  · rfl
  · cases op <;> cases hp
    cases op' <;> cases hp'
    rfl

theorem moving_congr : moving t eval l i op' = moving t eval l i op := by
  rcases h with rfl | ⟨hp', hp⟩
  · rfl
  · cases op <;> cases hp
    cases op' <;> cases hp'
    rfl

end

section

variable (hgrow : ∀ v, (eval v).Grows)
  (he : ∀ v, S v → Mirrors l l' (Twin l l') (eval v) (eval' v))

include hgrow he

theorem mirrors_combine {op : Operation} (hop : op.isPhi ∨ ∀ v ∈ op.operands, S v) :
    Mirrors l l' (Twin l l') (combine eval op) (combine eval' op) := by
  cases op with
  | binary op x y =>
    have hop := hop.resolve_left Bool.false_ne_true
    exact (he x (hop x (by simp [Operation.operands]))).bind
      (fun _ => (hgrow y).bind fun _ => grows_pure _) fun a a' ha =>
        (he y (hop y (by simp [Operation.operands]))).bind (fun _ => grows_pure _)
          fun b b' hb => mirrors_pure (ha.apply op hb)
  | gep x y =>
    have hop := hop.resolve_left Bool.false_ne_true
    exact (he x (hop x (by simp [Operation.operands]))).bind
      (fun _ => (hgrow y).bind fun _ => grows_pure _) fun a a' ha =>
        (he y (hop y (by simp [Operation.operands]))).bind (fun _ => grows_pure _)
          fun b b' hb => mirrors_pure (ha.add hb)
  | _ => exact mirrors_pure .unknown

theorem mirrors_fixed {i : InstId} {op : Operation}
    (hname : f'.symbolName (.inst i) = f.symbolName (.inst i))
    (hop : op.isPhi ∨ ∀ v ∈ op.operands, S v) :
    Mirrors l l' (Twin l l') (fixed f eval i op) (fixed f' eval' i op) := by
  have hunknown : Mirrors l l' (Twin l l')
      (do return .invariant (← f.unknown (.inst i))) (do return .invariant (← f'.unknown (.inst i))) :=
    (mirrors_unknown hname).bind (fun _ => grows_pure _)
      fun p p' hp => mirrors_pure (hp ▸ .invariant p)
  refine (mirrors_combine hgrow he hop).bind (fun e => ?_) fun e e' hee => ?_
  · cases e with
    | invariant p => exact grows_pure _
    | _ => exact (grows_unknown f _).bind fun _ => grows_pure _
  · cases hee with
    | invariant p => exact mirrors_pure (.invariant p)
    | _ => exact hunknown

theorem mirrors_moving (hc : Copies f f' t t' l l' S) {i : InstId} {op : Operation}
    (hop : op.isPhi ∨ ∀ v ∈ op.operands, S v) :
    Mirrors l l' (Twin l l') (moving t eval l i op) (moving t' eval' l' i op) := by
  cases op with
  | phi incoming =>
    simp only [moving]
    rw [hc.counter]
    cases hiv : (t.loop? l).bind (·.iv?) with
    | none => exact mirrors_pure .unknown
    | some iv =>
      dsimp only
      split
      · refine (he _ (hc.start iv hiv)).bind (fun e => ?_) fun e e' hee => ?_
        · cases e <;> exact grows_pure _
        · cases hee with
          | invariant p => exact mirrors_pure (.recur _ _)
          | _ => exact mirrors_pure .unknown
      · exact mirrors_pure .unknown
  | _ => exact mirrors_combine hgrow he hop

theorem mirrors_inst (hc : Copies f f' t t' l l' S) {i : InstId} (hi : S (.inst i))
    {entry entry' : Inst} (h : f.inst? i = some entry) (h' : f'.inst? i = some entry') :
    Mirrors l l' (Twin l l') (inst f t eval (some l) i entry)
      (inst f' t' eval' (some l') i entry') := by
  obtain ⟨_, _, h₁, h₂, hop, hst⟩ := hc.inst i hi
  obtain rfl := Option.some.inj (h.symm.trans h₁)
  obtain rfl := Option.some.inj (h'.symm.trans h₂)
  have hopd : entry.op.isPhi ∨ ∀ v ∈ entry.op.operands, S v := by
    by_cases hphi : entry.op.isPhi
    · exact .inl hphi
    · exact .inr (hc.operands i hi _ (by rw [Func.op?, h]; rfl) hphi)
  have hfixed : Mirrors l l' (Twin l l') (fixed f eval i entry.op)
      (fixed f' eval' i entry'.op) := by
    rw [fixed_congr hop]
    exact mirrors_fixed hgrow he (hc.name i hi) hopd
  have hmoving : Mirrors l l' (Twin l l') (moving t eval l i entry.op)
      (moving t' eval' l' i entry'.op) := by
    rw [moving_congr hop]
    exact mirrors_moving hgrow he hc hopd
  unfold inst
  generalize standing t (some l) entry.block = x at hst ⊢
  generalize standing t' (some l') entry'.block = y at hst ⊢
  cases hst with
  | before => exact hfixed
  | within => exact hmoving
  | elsewhere => exact mirrors_pure .unknown

end

theorem mirrors_value (hc : Copies f f' t t' l l' S) (budget : Nat) {v : Value} (hv : S v) :
    Mirrors l l' (Twin l l') (value f t budget v (some l)) (value f' t' budget v (some l')) := by
  have hparam : ∀ k, Mirrors l l' (Twin l l') (do return .invariant (← f.unknown (.param k)))
      (do return .invariant (← f'.unknown (.param k))) := fun k =>
    (mirrors_unknown (hc.param k)).bind (fun _ => grows_pure _)
      fun p p' hp => mirrors_pure (hp ▸ .invariant p)
  induction budget generalizing v with
  | zero =>
    cases v with
    | const c => exact mirrors_pure (.invariant _)
    | param k => exact hparam k
    | inst i => exact mirrors_pure .unknown
  | succ budget ih =>
    cases v with
    | const c => exact mirrors_pure (.invariant _)
    | param k => exact hparam k
    | inst i =>
      intro s s' hm hle
      obtain ⟨entry, entry', h, h', -⟩ := hc.inst i hv
      have hrel := hm i
      rw [value_inst] at hle ⊢
      rw [value_inst]
      rw [h] at hle ⊢
      rw [h']
      cases hs : s.remembered? i (some l) with
      | some e =>
        rw [hs] at hrel
        cases hs' : s'.remembered? i (some l') with
        | none => rw [hs'] at hrel; cases hrel
        | some e' =>
          rw [hs'] at hrel
          cases hrel with
          | some hrel => exact ⟨hrel, rfl, hm⟩
      | none =>
        rw [hs] at hrel hle
        cases hs' : s'.remembered? i (some l') with
        | some e' => rw [hs'] at hrel; cases hrel
        | none =>
          have hinst := mirrors_inst (fun v => grows_value f t budget v (some l))
            (fun v hv => ih hv) hc hv h h'
          exact hinst.bind (fun e => (grows_remember i _ e).bind fun _ => grows_pure _)
            (fun e e' hee => (mirrors_remember i hee).bind (fun _ => grows_pure _)
              fun _ _ _ => mirrors_pure hee) s s' hm hle

theorem mirrors_tripCount (hc : Copies f f' t t' l l' S)
    (htest : (t'.loop? l').bind (StayTest.ofLoop? f') = (t.loop? l).bind (StayTest.ofLoop? f))
    (hS : ∀ test, (t.loop? l).bind (StayTest.ofLoop? f) = some test → S test.bound ∧ S test.iv.start) :
    Mirrors l l' (· = ·) (tripCount f t l) (tripCount f' t' l') := by
  unfold tripCount
  rw [htest]
  cases h : (t.loop? l).bind (StayTest.ofLoop? f) with
  | none => exact mirrors_pure rfl
  | some test =>
    obtain ⟨hbound, hstart⟩ := hS test h
    refine (mirrors_value hc _ hbound).bind (fun b => ?_) fun b b' hb => ?_
    · refine (grows_value f t _ _ _).bind fun s => ?_
      cases b <;> cases s <;> exact grows_pure _
    · refine (mirrors_value hc _ hstart).bind (fun s => ?_) fun s s' hs => ?_
      · cases b <;> cases s <;> exact grows_pure _
      · cases hb <;> cases hs <;> exact mirrors_pure rfl

end Describe

end LoopFusion
