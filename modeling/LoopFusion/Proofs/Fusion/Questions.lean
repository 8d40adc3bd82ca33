import LoopFusion.Proofs.Fusion.Concord

/-!
Questions put to an engine in use, one after the other.
-/

namespace LoopFusion

open Inquiry

/-- What an engine in use is asked. -/
inductive Question
  | evolution (v : Value) (scope : Option LoopId)
  | tripCount (l : LoopId)
  | depends (x y : InstId) (sameIteration : Bool)
  | candidate (a b : Loop)

/-- Put a question, for what it does to the session. -/
def Checker.put (c : Checker) : Question → Inquiry Unit
  | .evolution v scope => do let _ ← c.engine.evolution v scope
  | .tripCount l => do let _ ← c.engine.tripCount l
  | .depends x y same => do let _ ← c.oracle.depends x y same
  | .candidate a b => do let _ ← (c.checkCandidate a b).verdict

def Checker.serve (c : Checker) (qs : List Question) : Inquiry Unit := qs.forM c.put

namespace Concord

variable {f : Func} {keep : Bool} {A : Accord} {R : Poly → Poly → Prop} {wording : Prop}

theorem keeps_put (q : Question) : ((Checker.builtIn (.ofFunc f) keep).put q).Keeps := by
  cases q with
  | evolution v scope => exact (gathers_evolution v scope).keeps.bind fun _ => keeps_pure _
  | tripCount l =>
    exact (Describe.gathers_tripCount f f.forest l).keeps.bind fun _ => keeps_pure _
  | depends x y same =>
    exact (Oracle.gathers_answer f f.forest x y same).keeps.bind fun _ => keeps_pure _
  | candidate a b => exact keeps_checkCandidate.bind fun _ => keeps_pure _

theorem keeps_serve (qs : List Question) :
    ((Checker.builtIn (.ofFunc f) keep).serve qs).Keeps := by
  induction qs with
  | nil => exact keeps_pure ()
  | cons q qs ih => exact (keeps_put q).bind fun _ => ih

variable (h : Concord f A R wording)

include h

theorem alongside_put (q : Question) : Alongside A (fun _ _ => True)
    ((Checker.builtIn (.ofFunc f) keep).put q) ((Checker.builtIn (.ofFunc f) keep).put q) := by
  have hdone {α : Type} {P : α → α → Prop} {q : Inquiry α} (hq : Alongside A P q q) :
      Alongside A (fun _ _ => True) (do let _ ← q) (do let _ ← q) :=
    hq.bind_same (fun _ => grows_pure ()) fun _ _ _ => alongside_pure trivial
  cases q with
  | evolution v scope => exact hdone (h.evolution v scope)
  | tripCount l => exact hdone (h.tripCount l)
  | depends x y same => exact hdone (h.answer x y same)
  | candidate a b => exact hdone (alongside_checkCandidate h)

theorem alongside_serve (qs : List Question) : Alongside A (fun _ _ => True)
    ((Checker.builtIn (.ofFunc f) keep).serve qs)
    ((Checker.builtIn (.ofFunc f) keep).serve qs) := by
  induction qs with
  | nil => exact alongside_pure trivial
  | cons q qs ih =>
    exact (alongside_put h q).bind_same (fun _ => (keeps_serve qs).grows) fun _ _ _ => ih

theorem alongside_after (keep : Bool) (qs : List Question) {α : Type} {P : α → α → Prop} {q : Inquiry α}
    (hgrow : q.Grows) (hq : Alongside A P q q) : Alongside A P
      (do (Checker.builtIn (.ofFunc f) keep).serve qs; q)
      (do (Checker.builtIn (.ofFunc f) keep).serve qs; q) :=
  (h.alongside_serve qs).bind_same (fun _ => hgrow) fun _ _ _ => hq

end Concord

end LoopFusion
