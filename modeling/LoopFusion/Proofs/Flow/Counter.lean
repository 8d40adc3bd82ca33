import LoopFusion.Proofs.Flow.Forest

/-!
The variable that counts the iterations of a loop: a phi of the header that takes one value from the
preheader and from the latch the sum of itself and a constant.
-/

namespace LoopFusion

open Relation LoopFusion.Flow

theorem fits_toInt (c : Int64) : Fits c.toInt := ⟨c.le_toInt, c.toInt_lt⟩

namespace Region

/-- How an instruction adds the constant `s` to a value. -/
theorem increment?_spec {this : Value} {op : Operation} {s : Int}
    (h : increment? this op = some s) :
    ∃ c : Int64, op = .binary .add this (.const c) ∧ s = c.toInt ∨
      op = .binary .add (.const c) this ∧ s = c.toInt ∨
      op = .binary .sub this (.const c) ∧ s = -c.toInt := by
  have hleft : ∀ l r, increment?.leftConstant? this l r = some s →
      ∃ c : Int64, l = .const c ∧ r = this ∧ s = c.toInt := by
    intro l r h
    unfold increment?.leftConstant? at h
    split at h
    · split at h <;> cases h
      exact ⟨_, rfl, ‹_›, rfl⟩
    · cases h
  unfold increment? at h
  split at h
  case h_1 l r =>
    split at h
    · split at h
      case isTrue hl =>
        obtain rfl := Option.some.inj h
        exact ⟨_, .inl ⟨by rw [hl], rfl⟩⟩
      case isFalse =>
        obtain ⟨c, rfl, hr, rfl⟩ := hleft _ _ h
        exact ⟨c, .inr (.inl ⟨by rw [hr], rfl⟩)⟩
    · obtain ⟨c, rfl, rfl, rfl⟩ := hleft _ _ h
      exact ⟨c, .inr (.inl ⟨rfl, rfl⟩)⟩
  case h_2 l c =>
    split at h
    · subst l
      exact ⟨c, .inr (.inr ⟨rfl, (checked_eq_some_iff.1 h).2.symm⟩)⟩
    · cases h
  case h_3 => cases h

theorem fits_increment? {this : Value} {op : Operation} {s : Int}
    (h : increment? this op = some s) : Fits s := by
  obtain ⟨c, ⟨-, rfl⟩ | ⟨-, rfl⟩ | ⟨rfl, rfl⟩⟩ := increment?_spec h
  · exact fits_toInt c
  · exact fits_toInt c
  · -- a constant that is taken away has been negated with a check
    have hneg : checked (-c.toInt) = some (-c.toInt) := by simpa [increment?] using h
    exact (checked_eq_some_iff.1 hneg).1

end Region

/-- The variable `iv` of the loop with this header, preheader and latch. -/
structure Func.Counter (f : Func) (header pre latch : BlockId) (iv : InductionVariable) : Prop where
  mem : iv.phi ∈ f.phis header
  incoming : ∃ incoming, f.op? iv.phi = some (.phi incoming) ∧ incoming.length = 2 ∧
    incoming.lookup pre = some iv.start ∧ incoming.lookup latch = some (.inst iv.next)
  next : ∃ op, f.op? iv.next = some op ∧ Region.increment? iv.value op = some iv.step
  step_ne : iv.step ≠ 0

theorem Func.Counter.fits_step {f : Func} {header pre latch : BlockId} {iv : InductionVariable}
    (h : f.Counter header pre latch iv) : Fits iv.step := by
  obtain ⟨op, -, hop⟩ := h.next
  exact Region.fits_increment? hop

theorem Region.counter_of_ivOf? {f : Func} {header pre latch : BlockId} {phi : InstId}
    {iv : InductionVariable} (hm : phi ∈ f.phis header) (h : ivOf? f pre latch phi = some iv) :
    f.Counter header pre latch iv := by
  simp only [ivOf?, Option.bind_eq_bind, Option.bind_eq_some_iff, Option.pure_def,
    Option.some.injEq] at h
  obtain ⟨_, hlen, start, hstart, v, hv, next, hnext, op, hop, step, hstep, _, hne, rfl⟩ := h
  have hlen := of_guard hlen
  refine ⟨hm, ⟨f.incoming phi, ?_, hlen, hstart, ?_⟩, ⟨op, hop, hstep⟩, of_guard hne⟩
  · rw [Func.incoming] at hlen ⊢
    split
    · assumption
    case h_2 h =>
      split at hlen
      · exact absurd ‹_› (h _)
      · simp at hlen
  · cases v with
    | inst i =>
      obtain rfl := Option.some.inj hnext
      exact hv
    | _ => cases hnext

namespace LoopForest

variable {f : Func} {l : Loop} {pre latch : BlockId} {iv : InductionVariable}

theorem iv?_eq_bind (hl : l ∈ f.forest.loops) : l.iv? = l.preheader?.bind fun pre =>
    l.latch?.bind fun latch => (f.phis l.header).findSome? (Region.ivOf? f pre latch) := by
  have hiv : l.iv? = (l.region.preheader? (Cfg.ofFunc f)).bind fun pre =>
      (only? l.latches).bind fun latch =>
        (f.phis l.header).findSome? (Region.ivOf? f pre latch) :=
    congrArg Loop.iv? (eq_ofRegion hl)
  rwa [← preheader?_eq hl] at hiv

theorem iv?_eq (hl : l ∈ f.forest.loops) (hpre : l.preheader? = some pre)
    (hlatch : l.latch? = some latch) :
    l.iv? = (f.phis l.header).findSome? (Region.ivOf? f pre latch) := by
  rw [iv?_eq_bind hl, hpre, Option.bind_some, hlatch, Option.bind_some]

theorem counter (hl : l ∈ f.forest.loops) (hpre : l.preheader? = some pre)
    (hlatch : l.latch? = some latch) (h : l.iv? = some iv) : f.Counter l.header pre latch iv := by
  rw [iv?_eq hl hpre hlatch] at h
  obtain ⟨phi, hm, hphi⟩ := List.exists_of_findSome?_eq_some h
  exact Region.counter_of_ivOf? hm hphi

theorem exists_counter (hl : l ∈ f.forest.loops) (h : l.iv? = some iv) :
    ∃ pre latch, l.preheader? = some pre ∧ l.latch? = some latch ∧
      f.Counter l.header pre latch iv := by
  have hiv := h
  rw [iv?_eq_bind hl] at hiv
  obtain ⟨pre, hpre, hiv⟩ := Option.bind_eq_some_iff.1 hiv
  obtain ⟨latch, hlatch, -⟩ := Option.bind_eq_some_iff.1 hiv
  exact ⟨pre, latch, hpre, hlatch, counter hl hpre hlatch h⟩

end LoopForest

end LoopFusion
