/-!
Sets of code points, listed as ranges that name both of their ends.
-/

namespace LoopFusion.Text

def inRanges (ranges : List (Nat × Nat)) (n : Nat) : Bool :=
  ranges.any fun (lo, hi) => lo ≤ n && n ≤ hi

end LoopFusion.Text
