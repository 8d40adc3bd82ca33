import LoopFusion.Flow.Cfg

/-!
Dominators by refinement of a parent table. Reachable nodes are numbered in reverse postorder, so
the root is number zero and a parent's number is smaller than its child's. Each pass sets the
parent of a node to the nearest common ancestor of its predecessors; the table that no pass changes
is the dominator tree.
-/

namespace LoopFusion.Flow

/-- A graph with a distinguished root and at most `bound` nodes reachable from it. -/
structure Rooted (ν : Type) where
  root : ν
  succs : ν → List ν
  preds : ν → List ν
  bound : Nat

/-- Parents by number; the root is its own parent, and a node without one is not yet placed. -/
abbrev Parents := Array (Option Nat)

namespace Parents

def parent? (t : Parents) (n : Nat) : Option Nat := t[n]?.join

/-- Climb from the deeper of `a` and `b` until both meet. -/
def meet (t : Parents) : Nat → Nat → Nat → Nat
  | 0, a, _ => a
  | fuel + 1, a, b =>
    if a = b then a
    else if b < a then
      match t.parent? a with
      | some p => meet t fuel p b
      | none => b
    else
      match t.parent? b with
      | some p => meet t fuel a p
      | none => a

/-- The nearest common ancestor of those predecessors that have a place. -/
def common? (t : Parents) (preds : List Nat) : Option Nat :=
  preds.foldl
    (fun best p =>
      match t.parent? p, best with
      | none, _ => best
      | some _, none => some p
      | some _, some q => some (t.meet (2 * t.size) p q))
    none

/-- Move one node below the common ancestor of its predecessors. -/
def update (preds : Array (List Nat)) (t : Parents) (n : Nat) : Parents :=
  match t.common? (preds[n]?.getD []) with
  | some d => t.setIfInBounds n (some d)
  | none => t

/-- Update every node but the root, in order. -/
def pass (preds : Array (List Nat)) (t : Parents) : Parents :=
  (List.range' 1 (t.size - 1)).foldl (update preds) t

/-- Repeat passes until one changes nothing. -/
def settle (preds : Array (List Nat)) : Nat → Parents → Parents
  | 0, t => t
  | fuel + 1, t =>
    let t' := pass preds t
    if t' = t then t else settle preds fuel t'

def initial (size : Nat) : Parents := (Array.replicate size none).setIfInBounds 0 (some 0)

/-- Whether the walk from `b` to the root meets `a`. -/
def isAncestor (t : Parents) : Nat → Nat → Nat → Bool
  | 0, _, _ => false
  | fuel + 1, a, b =>
    a = b || (b ≠ 0 && (t.parent? b).any fun p => isAncestor t fuel a p)

end Parents

/-- The dominator tree of the nodes reachable from a root. -/
structure DomTree (ν : Type) where
  order : List ν
  parents : Parents

namespace DomTree

variable {ν : Type} [DecidableEq ν]

def number? (t : DomTree ν) (n : ν) : Option Nat := t.order.idxOf? n

/-- Predecessors of each numbered node, as numbers. -/
def numberedPreds (preds : ν → List ν) (order : List ν) : Array (List Nat) :=
  (order.map fun n => (preds n).filterMap order.idxOf?).toArray

def ofRooted (g : Rooted ν) : DomTree ν :=
  let order := reversePostorder g.succs g.bound g.root
  let preds := numberedPreds g.preds order
  let n := order.length
  ⟨order, .settle preds (n * n + 1) (.initial n)⟩

/-- Whether every way from the root to `b` leads through `a`; false for unreachable nodes. -/
def dominates (t : DomTree ν) (a b : ν) : Bool :=
  match t.number? a, t.number? b with
  | some i, some j => t.parents.isAncestor t.order.length i j
  | _, _ => false

def strictlyDominates (t : DomTree ν) (a b : ν) : Bool := a ≠ b && t.dominates a b

/-- The parent in the tree, for reachable nodes other than the root. -/
def idom? (t : DomTree ν) (n : ν) : Option ν :=
  match t.number? n with
  | some (k + 1) => (t.parents.parent? (k + 1)).bind fun p => t.order[p]?
  | _ => none

end DomTree

end LoopFusion.Flow

namespace LoopFusion

/-- Dominance from the entry; a function without blocks has none. -/
structure Dominators where
  tree? : Option (Flow.DomTree BlockId)

namespace Dominators

def ofCfg (g : Cfg) : Dominators :=
  ⟨g.entry?.map fun e => .ofRooted ⟨e, g.succs, g.preds, g.capacity + 1⟩⟩

def dominates (d : Dominators) (a b : BlockId) : Bool := d.tree?.any (·.dominates a b)

def strictlyDominates (d : Dominators) (a b : BlockId) : Bool := a ≠ b && d.dominates a b

def idom? (d : Dominators) (b : BlockId) : Option BlockId := d.tree?.bind (·.idom? b)

end Dominators

/-- Dominance in the reversed graph, from a virtual exit `none` that follows every return. -/
structure PostDominators where
  tree : Flow.DomTree (Option BlockId)

namespace PostDominators

def reversed (g : Cfg) : Flow.Rooted (Option BlockId) where
  root := none
  succs
    | none => g.returns.map some
    | some b => (g.preds b).map some
  preds
    | none => []
    | some b => (g.succs b).map some ++ if g.returns.contains b then [none] else []
  bound := g.capacity + 2

def ofCfg (g : Cfg) : PostDominators := ⟨.ofRooted (reversed g)⟩

/-- Whether every way from `b` to a return leads through `a`. -/
def dominates (d : PostDominators) (a b : BlockId) : Bool := d.tree.dominates (some a) (some b)

/-- The nearest strict postdominator, unless only the virtual exit is one. -/
def ipdom? (d : PostDominators) (b : BlockId) : Option BlockId := (d.tree.idom? (some b)).join

end PostDominators

end LoopFusion
