import LoopFusion.Proofs.Inquiry
import LoopFusion.Proofs.Symbolic.Naming

/-!
What a session knows stays known. A question may add names and answers, it drops none, and it gives
no warning; so a recurrence that was found once is found again.
-/

namespace LoopFusion

def Session.warnings (s : Session) : List LogRecord := s.log.filter (·.level = .warn)

/-- The session `s'` knows all that `s` knows, and no warning was given in between. -/
structure Session.Extends (s s' : Session) : Prop where
  names : s.symbols ≤ s'.symbols
  answers : ∀ i scope x, s.remembered? i scope = some x → s'.remembered? i scope = some x
  warnings : s'.warnings = s.warnings

/-- The session `s'` knows all that `s` knows. -/
structure Session.Kept (s s' : Session) : Prop where
  names : s.symbols ≤ s'.symbols
  answers : ∀ i scope x, s.remembered? i scope = some x → s'.remembered? i scope = some x

namespace Session.Kept

variable {s s' s'' : Session}

theorem refl (s : Session) : s.Kept s := ⟨SymbolTable.le_refl _, fun _ _ _ h => h⟩

theorem trans (h : s.Kept s') (h' : s'.Kept s'') : s.Kept s'' :=
  ⟨SymbolTable.le_trans h.names h'.names,
    fun i scope x hx => h'.answers i scope x (h.answers i scope x hx)⟩

end Session.Kept

namespace Session.Extends

variable {s s' s'' : Session}

theorem kept (h : s.Extends s') : s.Kept s' := ⟨h.names, h.answers⟩

theorem refl (s : Session) : s.Extends s := ⟨SymbolTable.le_refl _, fun _ _ _ h => h, rfl⟩

theorem trans (h : s.Extends s') (h' : s'.Extends s'') : s.Extends s'' :=
  ⟨SymbolTable.le_trans h.names h'.names,
    fun i scope x hx => h'.answers i scope x (h.answers i scope x hx),
    h'.warnings.trans h.warnings⟩

end Session.Extends

namespace Inquiry

variable {α β : Type} {q : Inquiry α} {g : α → Inquiry β} {s s' : Session} {a : α}

/-- The question only adds to what is known. -/
def Gathers (q : Inquiry α) : Prop := ∀ s : Session, s.Extends (q s).2

theorem gathers_pure (a : α) : Gathers (pure a) := Session.Extends.refl

theorem Gathers.bind (hq : q.Gathers) (hg : ∀ a, (g a).Gathers) : (q >>= g).Gathers := fun s =>
  (hq s).trans (hg _ _)

theorem Gathers.of_eq (hq : q.Gathers) (h : q s = (a, s')) : s.Extends s' := by
  have := hq s
  rwa [h] at this

/-- The question drops nothing that is known. -/
def Keeps (q : Inquiry α) : Prop := ∀ s : Session, s.Kept (q s).2

theorem keeps_pure (a : α) : Keeps (pure a) := Session.Kept.refl

theorem Keeps.bind (hq : q.Keeps) (hg : ∀ a, (g a).Keeps) : (q >>= g).Keeps := fun s =>
  (hq s).trans (hg _ _)

theorem Keeps.grows (hq : q.Keeps) : q.Grows := fun s => (hq s).names

theorem Gathers.keeps (hq : q.Gathers) : q.Keeps := fun s => (hq s).kept

theorem Gathers.grows (hq : q.Gathers) : q.Grows := hq.keeps.grows

/-- The question gives no warning. -/
def Calm (q : Inquiry α) : Prop := ∀ s : Session, (q s).2.warnings = s.warnings

theorem Gathers.calm (hq : q.Gathers) : q.Calm := fun s => (hq s).warnings

theorem calm_pure (a : α) : Calm (pure a) := fun _ => rfl

theorem Calm.bind (hq : q.Calm) (hg : ∀ a, (g a).Calm) : (q >>= g).Calm := fun s =>
  (hg _ _).trans (hq s)

theorem gathers_write {level : Level} (hlevel : level ≠ .warn) (origin : Origin) (m : String) :
    (write level origin m).Gathers := fun _ =>
  ⟨SymbolTable.le_refl _, fun _ _ _ h => h, List.filter_cons_of_neg (by simpa using hlevel)⟩

theorem calm_forget : forget.Calm := fun _ => rfl

theorem extends_remember {i : InstId} {scope : Option LoopId} (e : Evolution) (h : s.Extends s')
    (hnew : s.remembered? i scope = none) : s.Extends (remember i scope e s').2 := by
  refine ⟨h.names, fun j scope' x hx => ?_, h.warnings⟩
  rw [remembered?_remember, if_neg]
  · exact h.answers j scope' x hx
  · rintro ⟨rfl, rfl⟩
    rw [hnew] at hx
    cases hx

end Inquiry

namespace Describe

open Inquiry

variable {f : Func} {t : LoopForest} {eval : Value → Inquiry Evolution} {s s' s'' : Session}

theorem gathers_unknown (f : Func) (v : Value) : (f.unknown v).Gathers := fun _ =>
  ⟨SymbolTable.intern_le _ _, fun _ _ _ h => h, rfl⟩

theorem grows_unknown (f : Func) (v : Value) : (f.unknown v).Grows := (gathers_unknown f v).grows

section

variable (he : ∀ v, (eval v).Gathers)

include he

theorem gathers_combine (op : Operation) : (combine eval op).Gathers := by
  cases op with
  | binary op l r => exact (he l).bind fun _ => (he r).bind fun _ => gathers_pure _
  | gep base offset => exact (he base).bind fun _ => (he offset).bind fun _ => gathers_pure _
  | _ => exact gathers_pure _

theorem gathers_fixed (i : InstId) (op : Operation) : (fixed f eval i op).Gathers := by
  refine (gathers_combine he op).bind fun e => ?_
  cases e with
  | invariant p => exact gathers_pure _
  | _ => exact (gathers_unknown f _).bind fun _ => gathers_pure _

theorem gathers_moving (l : LoopId) (i : InstId) (op : Operation) :
    (moving t eval l i op).Gathers := by
  unfold moving
  split
  · split
    · split
      · refine (he _).bind fun e => ?_
        cases e <;> exact gathers_pure _
      · exact gathers_pure _
    · exact gathers_pure _
  · exact gathers_combine he _

theorem gathers_inst (scope : Option LoopId) (i : InstId) (entry : Inst) :
    (inst f t eval scope i entry).Gathers := by
  unfold inst
  split
  · exact gathers_fixed he i _
  · exact gathers_moving he _ i _
  · exact gathers_pure _

end

/-- The evaluation of operands may come back to the same instruction, but then it does not know an
answer for it when it begins. -/
theorem gathers_value (f : Func) (t : LoopForest) (budget : Nat) (v : Value)
    (scope : Option LoopId) : (value f t budget v scope).Gathers := by
  induction budget generalizing v with
  | zero =>
    cases v with
    | const c => exact gathers_pure _
    | param k => exact (gathers_unknown f _).bind fun _ => gathers_pure _
    | inst i => exact gathers_pure _
  | succ budget ih =>
    cases v with
    | const c => exact gathers_pure _
    | param k => exact (gathers_unknown f _).bind fun _ => gathers_pure _
    | inst i =>
      intro s
      rw [value_inst]
      split
      · exact .refl s
      · exact .refl s
      case h_3 entry hmiss hi =>
        exact extends_remember _ (gathers_inst (fun v => ih v) scope i entry s) hmiss

theorem grows_value (f : Func) (t : LoopForest) (budget : Nat) (v : Value)
    (scope : Option LoopId) : (value f t budget v scope).Grows :=
  (gathers_value f t budget v scope).grows

theorem gathers_tripCount (f : Func) (t : LoopForest) (l : LoopId) : (tripCount f t l).Gathers := by
  unfold tripCount
  split
  · exact gathers_pure _
  · refine (gathers_value f t _ _ _).bind fun b => (gathers_value f t _ _ _).bind fun s => ?_
    cases b <;> cases s <;> exact gathers_pure _

theorem grows_tripCount (f : Func) (t : LoopForest) (l : LoopId) : (tripCount f t l).Grows :=
  (gathers_tripCount f t l).grows

/-- A recurrence is the answer to every later question of the same kind, and that asks nothing. -/
theorem value_again {v : Value} {scope : Option LoopId} {start step : Poly} {l : LoopId}
    {budget : Nat} (h : value f t (budget + 1) v scope s = (.recurrence start step l, s'))
    (hs : s'.Extends s'') :
    value f t (budget + 1) v scope s'' = (.recurrence start step l, s'') := by
  cases v with
  | const c => cases (Prod.mk.inj h).1
  | param k => cases (Prod.mk.inj h).1
  | inst i =>
    have hknown : s'.remembered? i scope = some (.recurrence start step l) := by
      rw [value_inst] at h
      split at h
      case h_1 x hx =>
        obtain ⟨rfl, rfl⟩ := Prod.mk.inj h
        exact hx
      case h_2 => cases (Prod.mk.inj h).1
      case h_3 entry hmiss hi =>
        obtain ⟨hx, rfl⟩ := Prod.mk.inj h
        rw [← hx]
        change (remember i scope _ _).2.remembered? i scope = _
        rw [remembered?_remember, if_pos ⟨rfl, rfl⟩]
    rw [value_inst, hs.answers i scope _ hknown]

end Describe

end LoopFusion
