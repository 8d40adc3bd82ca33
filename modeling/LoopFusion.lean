import LoopFusion.Ir.Builder
import LoopFusion.Main
import LoopFusion.Memory.Encoding
import LoopFusion.Proofs.Fusion.FusedCount
import LoopFusion.Proofs.Fusion.Spared
import LoopFusion.Proofs.Ir.Consistent
import LoopFusion.Proofs.Ir.Substitution
import LoopFusion.Proofs.Fusion.Run
import LoopFusion.Proofs.Flow.Reducible
import LoopFusion.Proofs.Operands
import LoopFusion.Proofs.Guarded.Verifier
import LoopFusion.Proofs.Guarded.Graph
import LoopFusion.Proofs.Fusion.FusedBlock
import LoopFusion.Proofs.Fusion.Leak
import LoopFusion.Proofs.Memory.Conflict
import LoopFusion.Proofs.Memory.Independence
import LoopFusion.Proofs.Flow.ExactDominance
import LoopFusion.Proofs.Flow.ExactPostdominance
import LoopFusion.Proofs.Symbolic.Stays
import LoopFusion.Proofs.Symbolic.Namesakes
import LoopFusion.Proofs.Fusion.HandOff
import LoopFusion.Proofs.Fusion.Conflicts
import LoopFusion.Proofs.Fusion.Known
import LoopFusion.Proofs.Fusion.Interleaving
import LoopFusion.Proofs.Fusion.Lockstep
import LoopFusion.Proofs.Fusion.Preserved
import LoopFusion.Proofs.Flow.Discovery
import LoopFusion.Proofs.Flow.Preorder
import LoopFusion.Proofs.Fusion.Pairing
import LoopFusion.Proofs.Fusion.Bare
import LoopFusion.Proofs.Fusion.History
import LoopFusion.Proofs.Fusion.Resume
import LoopFusion.Proofs.Fusion.Renaming
import LoopFusion.Proofs.Fusion.Distances
import LoopFusion.Proofs.Fusion.Atomic
import LoopFusion.Proofs.Flow.BuiltVerified
import LoopFusion.Proofs.Fusion.Row
import LoopFusion.Proofs.Fusion.RowWritten
import LoopFusion.Proofs.Fusion.Foretold
import LoopFusion.Proofs.Emitted
import LoopFusion.Proofs.Symbolic.Algebra
import LoopFusion.Proofs.Memory.Equation
import LoopFusion.Proofs.Guarded.Arithmetic
import LoopFusion.Proofs.Guarded.Dependence
import LoopFusion.Proofs.Memory.Opposite
import LoopFusion.Proofs.Fusion.Oracles
