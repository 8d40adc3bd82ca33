import LoopFusion.Proofs.Semantics.Tests
import LoopFusion.Proofs.Symbolic.History

/-!
Answers that do not depend on when they were given. Two sessions get the same answer if afterwards
some session knows all that both know. One engine's sessions lead one to the other; and as long as no
description goes deeper than an engine looks, so do those of two engines with the same names.
-/

namespace LoopFusion

open Inquiry

/-- A value that is no instruction outside of the arena. -/
def Func.Present (f : Func) : Value → Prop
  | .inst i => ∃ entry, f.inst? i = some entry
  | _ => True

namespace Func

variable {f : Func} {e : BlockId} {l : Loop} {v : Value} {k : Nat} {stay : StayTest}

theorem Usable.present (h : f.Usable v) : f.Present v := by
  cases v with
  | inst i =>
    obtain ⟨op, hop, -⟩ := (Option.any_eq_true _ _).1 h.2
    obtain ⟨entry, hentry, -⟩ := Option.map_eq_some_iff.1 hop
    exact ⟨entry, hentry⟩
  | _ => trivial

end Func

namespace Describe

variable {f : Func} {t : LoopForest} {s s' w : Session}

/-- What `s` remembers `w` would answer, with names that it has. -/
structure Recalled (f : Func) (t : LoopForest) (s w : Session) : Prop where
  names : s.symbols ≤ w.symbols
  answers : ∀ i scope x, s.remembered? i scope = some x →
    (value f t (maxDepth + 1) (.inst i) scope w).1 = x

theorem Recalled.of_kept (h : s.Kept w) : Recalled f t s w where
  names := h.names
  answers i scope x hx := by rw [value_inst, h.answers i scope x hx]

theorem Recalled.before (h : Recalled f t s' w) (hs : s.Kept s') : Recalled f t s w where
  names := SymbolTable.le_trans hs.names h.names
  answers i scope x hx := h.answers i scope x (hs.answers i scope x hx)

theorem Ready.recalled (hf : Shallow f t) (hs : Ready f t s) (hw : Ready f t w)
    (hle : s.symbols ≤ w.symbols) : Recalled f t s w where
  names := hle
  answers i scope x hx := by
    obtain ⟨hanswer, -⟩ := settles hf (.inst i) scope w hw
    exact hanswer.trans ((hs i scope x hx).mono hle).1

end Describe

namespace Inquiry

open Describe (Recalled)

variable {f : Func} {t : LoopForest} {w : Session} {α β : Type} {q : Inquiry α}
  {g : α → Inquiry β}

/-- The answer is `a` in every session whose findings `w` confirms. -/
def FirmAt (f : Func) (t : LoopForest) (w : Session) (q : Inquiry α) (a : α) : Prop :=
  ∀ s, Recalled f t (q s).2 w → (q s).1 = a

theorem firmAt_pure (a : α) : FirmAt f t w (pure a) a := fun _ _ => rfl

theorem FirmAt.bind {a : α} {b : β} (hq : FirmAt f t w q a) (hkeep : ∀ a, (g a).Keeps)
    (hg : FirmAt f t w (g a) b) : FirmAt f t w (q >>= g) b := by
  intro s hs
  have hanswer := hq s (Recalled.before hs (hkeep _ _))
  change (g (q s).1 (q s).2).1 = b
  change Recalled f t (g (q s).1 (q s).2).2 w at hs
  rw [hanswer] at hs ⊢
  exact hg _ hs

/-- There is one answer for all these sessions. -/
def Firm (f : Func) (t : LoopForest) (w : Session) (q : Inquiry α) : Prop := ∃ a, FirmAt f t w q a

theorem firm_pure (a : α) : Firm f t w (pure a) := ⟨a, firmAt_pure a⟩

theorem Firm.bind (hq : Firm f t w q) (hkeep : ∀ a, (g a).Keeps) (hg : ∀ a, Firm f t w (g a)) :
    Firm f t w (q >>= g) := by
  obtain ⟨a, ha⟩ := hq
  obtain ⟨b, hb⟩ := hg a
  exact ⟨b, ha.bind hkeep hb⟩

end Inquiry

namespace Describe

variable {f : Func} {t : LoopForest} {e : BlockId} {w : Session}

theorem firm_unknown (f : Func) (t : LoopForest) (w : Session) (v : Value) :
    Firm f t w (f.unknown v) := by
  refine ⟨(f.unknown v w).1, fun s hs => ?_⟩
  have hname := SymbolTable.intern_of_le (show (s.symbols.intern (f.symbolName v)).2 ≤ w.symbols
    from hs.names)
  change Poly.symbol (s.symbols.intern (f.symbolName v)).1 =
    .symbol (w.symbols.intern (f.symbolName v)).1
  rw [hname]

theorem firm_value {v : Value} (hv : f.Present v) (scope : Option LoopId) :
    Firm f t w (value f t (maxDepth + 1) v scope) := by
  cases v with
  | const c => exact ⟨_, fun _ _ => rfl⟩
  | param k => exact (firm_unknown f t w _).bind (fun _ => keeps_pure _) fun _ => firm_pure _
  | inst i =>
    obtain ⟨entry, hentry⟩ := hv
    refine ⟨(value f t (maxDepth + 1) (.inst i) scope w).1, fun s hs => ?_⟩
    refine (hs.answers i scope _ ?_).symm
    cases hknown : s.remembered? i scope with
    | some x =>
      rw [value_inst, hknown]
      exact hknown
    | none =>
      rw [value_of_miss maxDepth hknown hentry, remembered?_remember, if_pos ⟨rfl, rfl⟩]

end Describe

end LoopFusion
