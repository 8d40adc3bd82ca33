/-!
Depth-first search of a graph given by its adjacency lists.
-/

namespace LoopFusion.Flow

variable {ν : Type} [DecidableEq ν]

/-- A search under way: the nodes met so far, and those left for good, latest first. -/
structure Visit (ν : Type) where
  seen : List ν
  order : List ν

/-- Search from `n`, entering at most `fuel` new nodes below one another. -/
def visit (next : ν → List ν) : Nat → Visit ν → ν → Visit ν
  | 0, s, _ => s
  | fuel + 1, s, n =>
    if n ∈ s.seen then s
    else
      let s := (next n).foldl (visit next fuel) { s with seen := n :: s.seen }
      { s with order := n :: s.order }

/-- What a search from `roots` leaves, latest first; on a graph of at most `bound` nodes these are
all nodes that can be reached. -/
def searchFrom (next : ν → List ν) (bound : Nat) (roots : List ν) : List ν :=
  (roots.foldl (visit next bound) ⟨[], []⟩).order

/-- The nodes reachable from `root` in reverse postorder. -/
def reversePostorder (next : ν → List ν) (bound : Nat) (root : ν) : List ν :=
  searchFrom next bound [root]

end LoopFusion.Flow
