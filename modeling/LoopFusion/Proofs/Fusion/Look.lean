import LoopFusion.Proofs.Fusion.Concord
import LoopFusion.Proofs.Symbolic.Replay

/-!
What a scan comes to depends on the function and on the names that are known, in the order in which
they were given; a scan that is made again comes to the same.
-/

namespace LoopFusion

open Inquiry

variable {f : Func} {w : SymbolTable}

theorem Concord.replay (f : Func) (w : SymbolTable) : Concord f (.replay w) (· = ·) False :=
  .of_eq (Describe.value_replay _) alongside_unknown_replay False.elim

namespace Pass

variable {config : FusionConfig} {s s' : Session}

/-- The plan that a scan comes to, and the names known afterwards, when it starts with the names of
the table. -/
def look (config : FusionConfig) (f : Func) (t : SymbolTable) : Option FusionPlan × SymbolTable :=
  ((scan config f (.naming t)).1.plan?, (scan config f (.naming t)).2.symbols)

/-- Between the names that a scan starts with and those that it ends with, or later on, the scan
comes to the same plan. -/
theorem scan_between (s s' : Session) (hle : s.symbols ≤ s'.symbols) (hw : s'.symbols ≤ w)
    (hroom : (scan config f s).2.symbols ≤ w) :
    (scan config f s).1.plan? = (scan config f s').1.plan? ∧
      (scan config f s).2.symbols ≤ (scan config f s').2.symbols ∧
      (scan config f s').2.symbols ≤ w := by
  obtain ⟨hsame, -, hle', hw'⟩ := alongside_search (Concord.replay f w) config { s with memo := [] }
    { s' with memo := [] } ⟨rfl, hle, hw⟩ hroom
  exact ⟨hsame.plan?, hle', hw'⟩

theorem scan_eq_look (config : FusionConfig) (f : Func) (s : Session) :
    (scan config f s).1.plan? = (look config f s.symbols).1 ∧
      (scan config f s).2.symbols = (look config f s.symbols).2 := by
  obtain ⟨hplan, hle, hge⟩ := scan_between s (.naming s.symbols) (SymbolTable.le_refl _)
    (grows_scan s) (SymbolTable.le_refl (scan config f s).2.symbols)
  rw [look]
  exact ⟨hplan, SymbolTable.le_antisymm hle hge⟩

theorem look_grows (config : FusionConfig) (f : Func) (t : SymbolTable) :
    t ≤ (look config f t).2 := grows_scan (.naming t)

theorem look_between {t u : SymbolTable} (hle : t ≤ u) (hw : u ≤ w)
    (hroom : (look config f t).2 ≤ w) : (look config f t).1 = (look config f u).1 ∧
      (look config f t).2 ≤ (look config f u).2 ∧ (look config f u).2 ≤ w :=
  scan_between (.naming t) (.naming u) hle hw hroom

theorem look_again {t u : SymbolTable} (h : (look config f t).2 ≤ u) :
    look config f u = ((look config f t).1, u) := by
  obtain ⟨hplan, -, hle⟩ :=
    look_between (SymbolTable.le_trans (look_grows config f t) h) (SymbolTable.le_refl u) h
  exact Prod.ext hplan.symm (SymbolTable.le_antisymm (look_grows config f u) hle).symm

end Pass

end LoopFusion
