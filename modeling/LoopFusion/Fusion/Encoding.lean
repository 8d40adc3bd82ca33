import LoopFusion.Fusion.Pass
import LoopFusion.Ir.Encoding

/-!
Configurations, plans and reports as JSON documents.
-/

namespace LoopFusion

namespace Encode

open Json (nat str obj bool)

def loopShape (s : LoopShape) : Json :=
  obj [("header", blockId s.header), ("latch", blockId s.latch),
    ("preheader", blockId s.preheader), ("guard", .ofOption blockId s.guard?),
    ("body_head", blockId s.bodyHead), ("body_tail", blockId s.bodyTail),
    ("exit", blockId s.exit), ("iv", instId s.iv), ("iv_next", instId s.next),
    ("entry", blockId s.entry)]

def plan (p : FusionPlan) : Json :=
  obj [("first", loopShape p.first), ("second", loopShape p.second),
    ("retired", .ofList blockId p.retired)]

def config (c : FusionConfig) : Json :=
  obj [("rescan_after_fusion", bool c.rescan), ("max_fusions", .ofOption nat c.maxFusions?),
    ("check_output_dependences", bool c.keepOutputs), ("verify_after_fusion", bool c.verify)]

def fusedPair (p : FusedPair) : Json := obj [("first", str p.first), ("second", str p.second)]

def rejection (kind : RejectionKind) (message : String) : Json :=
  obj [("message", str message), ("kind", str kind.key)]

def rejectedPair (p : RejectedPair) : Json :=
  obj [("first", str p.pair.first), ("second", str p.pair.second),
    ("reason", rejection p.kind p.message)]

def report (r : FusionReport) : Json :=
  obj [("function", str r.function), ("changed", bool r.changed), ("candidates", nat r.candidates),
    ("fused", .ofList fusedPair r.fused), ("rejected", .ofList rejectedPair r.rejected),
    ("rounds", nat r.rounds)]

end Encode

namespace Decode

open Json (fields? bool? natBelow? nullable?)

def config (j : Json) : Option FusionConfig := do
  let names := ["rescan_after_fusion", "max_fusions", "check_output_dependences",
    "verify_after_fusion"]
  match ← fields? names j with
  | [rescan, max, outputs, verify] =>
    return ⟨← rescan.required bool?, ← max.optional (nullable? (natBelow? UInt64.size)),
      ← outputs.required bool?, ← verify.required bool?⟩
  | _ => none

end Decode

end LoopFusion
