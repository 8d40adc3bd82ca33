import LoopFusion.Ir.Func

/-!
Why two loops are not fused.
-/

namespace LoopFusion

inductive RejectionKind
  | notAdjacent
  | tripCountMismatch
  | notFlowEquivalent
  | unresolvedSymbolic
  | malformedLoopShape
  | unknownDependenceDirection
  | negativeDistance
  | scalarDependence
  | inductionVariableMismatch
deriving DecidableEq

namespace RejectionKind

def all : List RejectionKind :=
  [notAdjacent, tripCountMismatch, notFlowEquivalent, unresolvedSymbolic, malformedLoopShape,
    unknownDependenceDirection, negativeDistance, scalarDependence, inductionVariableMismatch]

/-- The words that stand in messages. -/
def phrase : RejectionKind → String
  | notAdjacent => "not adjacent"
  | tripCountMismatch => "trip count mismatch"
  | notFlowEquivalent => "not flow equivalent"
  | unresolvedSymbolic => "unresolved symbolic"
  | malformedLoopShape => "malformed loop shape"
  | unknownDependenceDirection => "unknown dependence direction"
  | negativeDistance => "negative dependence distance"
  | scalarDependence => "scalar dependence"
  | inductionVariableMismatch => "induction variable mismatch"

/-- The key that stands in reports. -/
def key : RejectionKind → String
  | notAdjacent => "not_adjacent"
  | tripCountMismatch => "trip_count_mismatch"
  | notFlowEquivalent => "not_flow_equivalent"
  | unresolvedSymbolic => "unresolved_symbolic"
  | malformedLoopShape => "malformed_loop_shape"
  | unknownDependenceDirection => "unknown_dependence_direction"
  | negativeDistance => "negative_distance"
  | scalarDependence => "scalar_dependence"
  | inductionVariableMismatch => "induction_variable_mismatch"

def ofKey? (k : String) : Option RejectionKind := all.find? fun r => r.key == k

/-- A message with the kind in front. -/
def explain (k : RejectionKind) (message : String) : String := k.phrase ++ ": " ++ message

end RejectionKind

/-- What is wrong with the shape of a single loop. -/
inductive ShapeFault
  | notSimplified
  | manyExits
  | exitsOutsideHeader
  | unterminatedHeader
  | unconditionalHeader
  | headerMissesExit
  | manyLatches
  | latchBranches
  | latchWorks

def ShapeFault.phrase : ShapeFault → String
  | notSimplified => "is not in simplified form"
  | manyExits => "does not have a single exit block"
  | exitsOutsideHeader => "exits from a block other than its header"
  | unterminatedHeader => "has an unterminated header"
  | unconditionalHeader => "header does not end in a conditional branch"
  | headerMissesExit => "header does not branch between body and exit"
  | manyLatches => "has no unique latch"
  | latchBranches => "latch does not branch unconditionally to the header"
  | latchWorks => "latch does more than step the induction variable"

/-- What is wrong with the induction variables of two loops. -/
inductive VariableFault
  | missing
  | steps
  | starts

def VariableFault.phrase : VariableFault → String
  | missing => "missing induction variable"
  | steps => "steps differ"
  | starts => "start values differ"

/-- Why the distance of a dependence is not known to be harmless. -/
inductive DistanceFault
  | subLoop (loop : String)
  | notAffine
  | zeroStride
  | strides (first second : String)
  | overflow
  | unknownSign (distance : String)

def DistanceFault.phrase : DistanceFault → String
  | subLoop l => "access inside a sub-loop of " ++ l
  | notAffine => "address is not an affine recurrence"
  | zeroStride => "stride not known to be non-zero"
  | strides s t => "strides " ++ s ++ " and " ++ t ++ " differ"
  | overflow => "distance overflows"
  | unknownSign d => "sign of distance " ++ d ++ " is unknown"

/-- A reason not to fuse; loops are given by name, dependences by their description. -/
inductive Rejection
  | notSiblings (a b : String)
  | shape (l : String) (fault : ShapeFault)
  | noEntry (b : String)
  | noExit (a : String)
  | strayExit (exit a entry b : String)
  | busyHandOff (block : String) (size : Nat)
  | noTripCount (l : String)
  | tripCounts (a countA b countB : String)
  | flow (a b : String)
  | counters (a b : String) (fault : VariableFault)
  | starts (a b : String)
  | scalar (b value a : String)
  | unproven (dependence : String) (directionKnown : Bool) (fault : DistanceFault)
  | negative (dependence distance : String)
  | plan (message : String)

namespace Rejection

def kind : Rejection → RejectionKind
  | notSiblings .. | noEntry _ | noExit _ | strayExit .. | busyHandOff .. => .notAdjacent
  | shape .. | plan _ => .malformedLoopShape
  | noTripCount _ | starts .. => .unresolvedSymbolic
  | tripCounts .. => .tripCountMismatch
  | flow .. => .notFlowEquivalent
  | counters .. => .inductionVariableMismatch
  | scalar .. => .scalarDependence
  | unproven _ known _ => if known then .unresolvedSymbolic else .unknownDependenceDirection
  | negative .. => .negativeDistance

def message : Rejection → String
  | notSiblings a b => a ++ " and " ++ b ++ " are not siblings"
  | shape l fault => l ++ " " ++ fault.phrase
  | noEntry b => b ++ " has neither preheader nor guard"
  | noExit a => a ++ " has no exit"
  | strayExit exit a entry b =>
    "exit " ++ exit ++ " of " ++ a ++ " is not the entry " ++ entry ++ " of " ++ b
  | busyHandOff block size =>
    "hand-off block " ++ block ++ " has " ++ toString size ++ " instructions"
  | noTripCount l => "backedge-taken count of " ++ l ++ " could not be computed"
  | tripCounts a ca b cb =>
    a ++ " runs " ++ ca ++ " times but " ++ b ++ " runs " ++ cb ++ " times"
  | flow a b => a ++ " and " ++ b ++ " do not always execute together"
  | counters a b fault => a ++ " and " ++ b ++ ": " ++ fault.phrase
  | starts a b => "start values of " ++ a ++ " and " ++ b ++ " could not be compared"
  | scalar b v a => b ++ " uses " ++ v ++ " defined in " ++ a
  | unproven dep _ fault => dep ++ ": " ++ fault.phrase
  | negative dep d => dep ++ ": distance " ++ d ++ " is negative"
  | plan message => message

def text (r : Rejection) : String := r.kind.explain r.message

end Rejection

end LoopFusion
