import LoopFusion.Ir.Func
import LoopFusion.Flow.Traversal

/-!
The control-flow graph of the blocks in the layout, with one table entry per block of the arena.
-/

namespace LoopFusion

structure Cfg where
  entry? : Option BlockId
  succTable : Array (List BlockId)
  predTable : Array (List BlockId)
  /-- The blocks reachable from the entry in reverse postorder. -/
  order : List BlockId
  /-- Blocks of the layout that end in a return. -/
  returning : List BlockId

namespace Cfg

def succs (g : Cfg) (b : BlockId) : List BlockId := g.succTable[b.index]?.getD []

def preds (g : Cfg) (b : BlockId) : List BlockId := g.predTable[b.index]?.getD []

def capacity (g : Cfg) : Nat := g.succTable.size

def reachable (g : Cfg) (b : BlockId) : Bool := g.order.contains b

def position? (g : Cfg) (b : BlockId) : Option Nat := g.order.idxOf? b

/-- Reachable blocks that end in a return. -/
def returns (g : Cfg) : List BlockId := g.returning.filter g.reachable

/-- Edges out of the blocks in the layout; a branch with equal targets is one edge. -/
def succTableOf (f : Func) : Array (List BlockId) :=
  (Array.range f.blocks.size).map fun i =>
    if f.layout.contains ⟨i⟩ then (f.successors ⟨i⟩).eraseReps else []

/-- Record the edge from `b` to `s` unless it is there. -/
def addEdge (b : BlockId) (table : Array (List BlockId)) (s : BlockId) : Array (List BlockId) :=
  table.modify s.index fun ps => if ps.contains b then ps else ps ++ [b]

def predTableOf (f : Func) (succs : BlockId → List BlockId) : Array (List BlockId) :=
  f.layout.foldl (fun table b => (succs b).foldl (addEdge b) table)
    (Array.replicate f.blocks.size [])

def ofFunc (f : Func) : Cfg :=
  let succTable := succTableOf f
  let succs (b : BlockId) := succTable[b.index]?.getD []
  { entry? := f.entry?
    succTable := succTable
    predTable := predTableOf f succs
    order := f.entry?.elim [] (Flow.reversePostorder succs (f.blocks.size + 1))
    returning := f.layout.filter fun b => (f.exitOp? b).any Operation.isRet }

end Cfg

end LoopFusion
