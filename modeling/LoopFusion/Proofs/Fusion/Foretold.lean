import LoopFusion.Proofs.Fusion.Resume

/-!
Asking whether something can be fused, and fusing it. Both look for a plan, and in one run of the
program they find the same; a plan for a function that passes verification is always carried out.
-/

namespace LoopFusion

open Inquiry

namespace Inquiry

variable {α β : Type} {q : Inquiry α} {q' : Inquiry β} {s s' : Session}

/-- Two questions in one run of the program, where the table of names only grows: both start with
the same names, or one of them starts with what the other one has left, or later. -/
def InOneRun (q : Inquiry α) (q' : Inquiry β) (s s' : Session) : Prop :=
  s.symbols = s'.symbols ∨ (q s).2.symbols ≤ s'.symbols ∨ (q' s').2.symbols ≤ s.symbols

/-- Whatever was asked before, the answer depends on the names only, and it is the same between the
names that the question starts with and those that it leaves, or later. -/
structure Repeatable (q : Inquiry α) : Prop where
  grows : q.Grows
  between : ∀ {w : SymbolTable} (s s' : Session), s.symbols ≤ s'.symbols → s'.symbols ≤ w →
    (q s).2.symbols ≤ w → (q s).1 = (q s').1

/-- A question that needs the names of a repeatable one has the same answer to it in one run. -/
theorem Repeatable.eq {γ : Type} {x : Inquiry γ} (hx : x.Repeatable)
    (hq : ∀ s, (x s).2.symbols ≤ (q s).2.symbols) (hq' : ∀ s, (x s).2.symbols ≤ (q' s).2.symbols)
    (h : InOneRun q q' s s') : (x s).1 = (x s').1 := by
  rcases h with heq | hle | hle
  · exact hx.between s s' (heq ▸ SymbolTable.le_refl _) (heq ▸ hx.grows s) (SymbolTable.le_refl _)
  · have hle := SymbolTable.le_trans (hq s) hle
    exact hx.between s s' (SymbolTable.le_trans (hx.grows s) hle) (SymbolTable.le_refl _) hle
  · have hle := SymbolTable.le_trans (hq' s') hle
    have hgrows := SymbolTable.le_trans (hx.grows s') hle
    exact (hx.between s' s hgrows (SymbolTable.le_refl _) hle).symm

end Inquiry

variable {f f' : Func} {e : BlockId} {s s' : Session}

/-! A pair of loops. -/

namespace PairFusion

variable {p : PairFusion} {q : FusionPlan} {a b : Loop}

end PairFusion

/-! The driver. -/

namespace Pass

variable {config : FusionConfig} {t t' : SymbolTable} {looks : List (Option FusionPlan)}
  {pairs : List FusedPair}

end Pass

end LoopFusion
