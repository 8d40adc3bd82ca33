import LoopFusion.Proofs.Fusion.History
import LoopFusion.Proofs.Fusion.Warnings
import LoopFusion.Proofs.Memory.Subscripts
import LoopFusion.Proofs.Symbolic.Firm

/-!
A dependence asked for in both directions. The two equations have their coefficients exchanged and
their offsets negated, and a number may have a negative that does not fit; so one of the answers may
be that nothing is known. Where both of them say something, each is the mirror image of the other.
-/

namespace LoopFusion

open Inquiry Describe

namespace Diophantine

variable {a b c m n : Int}

end Diophantine

namespace Conflict

open Diophantine

variable {a b c k : Int} {m? n? : Option Int}

/-- The two agree as far as both say something. -/
inductive Opposed : Conflict → Conflict → Prop
  | never : Opposed .never .never
  | always (d : Int) : Opposed (.always d) (.always (-d))
  | left (c : Conflict) : Opposed .possible c
  | right (c : Conflict) : Opposed c .possible

end Conflict

/-- What the first access does after what the second did. -/
def DependenceKind.mirrored : DependenceKind → DependenceKind
  | .flow => .anti
  | .anti => .flow
  | .output => .output
  | .input => .input

def Direction.mirrored : Direction → Direction
  | .lt => .gt
  | .eq => .eq
  | .gt => .lt
  | .star => .star

@[simp] theorem DependenceKind.mirrored_mirrored (k : DependenceKind) : k.mirrored.mirrored = k := by
  cases k <;> rfl

@[simp] theorem Direction.mirrored_mirrored (d : Direction) : d.mirrored.mirrored = d := by
  cases d <;> rfl

theorem Direction.ofDistance_neg (d : Int) : ofDistance (-d) = (ofDistance d).mirrored := by
  rcases lt_trichotomy d 0 with h | rfl | h
  · rw [ofDistance, ofDistance, if_neg (by omega), if_neg (by omega), if_pos h]
    rfl
  · rfl
  · rw [ofDistance, ofDistance, if_pos (by omega), if_neg (by omega), if_neg (by omega)]
    rfl

/-- The answers to opposite questions do not contradict each other. -/
structure Mirrors (r r' : Option Dependence) : Prop where
  /-- A distance on one side is not met by the answer that there is no dependence. -/
  forth : ∀ dep d, r = some dep → dep.distance? = some d → r' ≠ none
  back : ∀ dep d, r' = some dep → dep.distance? = some d → r ≠ none
  distances : ∀ dep dep' d d', r = some dep → r' = some dep' → dep.distance? = some d →
    dep'.distance? = some d' → d' = -d ∧ dep'.direction = dep.direction.mirrored
  reports : ∀ dep dep', r = some dep → r' = some dep' →
    dep'.src = dep.dst ∧ dep'.dst = dep.src ∧ dep'.kind = dep.kind.mirrored
  confused : (∃ dep, r = some dep ∧ dep.confused) ↔ ∃ dep, r' = some dep ∧ dep.confused

namespace Mirrors

variable {r r' : Option Dependence} {x y : InstId} {kind : DependenceKind} {same : Bool}

theorem symm (h : Mirrors r r') : Mirrors r' r where
  forth := h.back
  back := h.forth
  distances dep dep' d d' hdep hdep' hd hd' := by
    obtain ⟨rfl, hdir⟩ := h.distances dep' dep d' d hdep' hdep hd' hd
    rw [neg_neg, hdir, Direction.mirrored_mirrored]
    exact ⟨rfl, rfl⟩
  reports dep dep' hdep hdep' := by
    obtain ⟨hsrc, hdst, hkind⟩ := h.reports dep' dep hdep' hdep
    rw [hkind, DependenceKind.mirrored_mirrored]
    exact ⟨hdst.symm, hsrc.symm, rfl⟩
  confused := h.confused.symm

theorem none : Mirrors none none := by
  constructor <;> simp

theorem both {dep dep' : Dependence} (hnames : dep'.src = dep.dst ∧ dep'.dst = dep.src)
    (hkind : dep'.kind = dep.kind.mirrored) (hconfused : dep'.confused = dep.confused)
    (hdistance : ∀ d d', dep.distance? = some d → dep'.distance? = some d' →
      d' = -d ∧ dep'.direction = dep.direction.mirrored) : Mirrors (some dep) (some dep') where
  forth := by simp
  back := by simp
  distances := by
    rintro _ _ d d' ⟨⟩ ⟨⟩
    exact hdistance d d'
  reports := by
    rintro _ _ ⟨⟩ ⟨⟩
    exact ⟨hnames.1, hnames.2, hkind⟩
  confused := by simp [hconfused]

theorem unresolved (x y : InstId) (kind : DependenceKind) (confused : Bool) :
    Mirrors (some (.unresolved x y kind confused))
      (some (.unresolved y x kind.mirrored confused)) :=
  both ⟨rfl, rfl⟩ rfl rfl (by simp [Dependence.unresolved])

theorem unknown {c : Conflict} : Mirrors (some (.unresolved x y kind false))
    (Oracle.report y x kind.mirrored same c) := by
  have hnone : Mirrors (some (.unresolved x y kind false)) Option.none := by
    constructor
    · rintro _ d ⟨⟩ ⟨⟩
    all_goals simp [Dependence.unresolved]
  cases c with
  | never => exact hnone
  | possible => exact unresolved x y kind false
  | always d =>
    rw [Oracle.report]
    split
    · exact hnone
    · exact both ⟨rfl, rfl⟩ rfl rfl (by simp [Dependence.unresolved])

theorem report {c c' : Conflict} (h : c.Opposed c') :
    Mirrors (Oracle.report x y kind same c) (Oracle.report y x kind.mirrored same c') := by
  cases h with
  | never => exact none
  | left => exact unknown
  | right =>
    have h : Mirrors (some (.unresolved y x kind.mirrored false))
        (Oracle.report x y kind.mirrored.mirrored same c) := unknown
    rw [DependenceKind.mirrored_mirrored] at h
    exact h.symm
  | always d =>
    simp only [Oracle.report, neg_eq_zero]
    split
    · exact none
    · refine both ⟨rfl, rfl⟩ rfl rfl ?_
      rintro _ _ ⟨⟩ ⟨⟩
      exact ⟨rfl, Direction.ofDistance_neg d⟩

end Mirrors

namespace Subscript

variable {f : Func} {e : BlockId} {w : Session}

end Subscript

namespace Oracle

variable {f : Func} {e : BlockId} {x y : InstId} {same : Bool} {s s' w : Session}

end Oracle

namespace Oracle

variable {f : Func} {e : BlockId} {x y : InstId} {kind : DependenceKind} {same : Bool}
  {s s' w : Session}

end Oracle

end LoopFusion
