import LoopFusion.Ir.Operation

/-!
Functions: arenas of blocks and instructions, and the layout that lists the live blocks. A handle
stays valid when its block is retired; a handle outside the arenas finds nothing.
-/

namespace LoopFusion

/-- The element of a list that has exactly one. -/
def only? {α : Type} : List α → Option α
  | [a] => some a
  | _ => none

/-- An instruction with the block that owns it. -/
structure Inst where
  op : Operation
  block : BlockId
  name : Option String
deriving DecidableEq

/-- An ordered list of instructions; a detached block has left the layout for good. -/
structure Block where
  name : String
  insts : List InstId
  detached : Bool
deriving DecidableEq

structure Func where
  name : String
  params : List Param
  blocks : Array Block
  insts : Array Inst
  layout : List BlockId
deriving DecidableEq

structure Module where
  name : String
  functions : List Func
deriving DecidableEq

namespace Func

def block? (f : Func) (b : BlockId) : Option Block := f.blocks[b.index]?

def inst? (f : Func) (i : InstId) : Option Inst := f.insts[i.index]?

def op? (f : Func) (i : InstId) : Option Operation := (f.inst? i).map (·.op)

def owner? (f : Func) (i : InstId) : Option BlockId := (f.inst? i).map (·.block)

def body (f : Func) (b : BlockId) : List InstId := (f.block? b).elim [] (·.insts)

def blockName (f : Func) (b : BlockId) : String := (f.block? b).elim "" (·.name)

/-- Whether the block exists and has not been retired. -/
def contains (f : Func) (b : BlockId) : Bool := (f.block? b).any fun blk => !blk.detached

def entry? (f : Func) : Option BlockId := f.layout.head?

/-- Instructions of the blocks in the layout. -/
def liveInsts (f : Func) : List InstId := f.layout.flatMap f.body

def isTerminator (f : Func) (i : InstId) : Bool := (f.op? i).any Operation.isTerminator

def isPhi (f : Func) (i : InstId) : Bool := (f.op? i).any Operation.isPhi

def hasResult (f : Func) (i : InstId) : Bool := (f.op? i).any Operation.hasResult

def writesMemory (f : Func) (i : InstId) : Bool := (f.op? i).any Operation.writesMemory

def accessesMemory (f : Func) (i : InstId) : Bool := (f.op? i).any Operation.accessesMemory

def operands (f : Func) (i : InstId) : List Value := (f.op? i).elim [] Operation.operands

def uses (f : Func) (i : InstId) : List InstId := (f.op? i).elim [] Operation.uses

/-- The last instruction of a block, if it ends the block. -/
def terminator? (f : Func) (b : BlockId) : Option InstId :=
  (f.body b).getLast?.filter f.isTerminator

def exitOp? (f : Func) (b : BlockId) : Option Operation := (f.terminator? b).bind f.op?

def successors (f : Func) (b : BlockId) : List BlockId := (f.exitOp? b).elim [] Operation.targets

/-- Blocks of the layout with an edge into `b`, in layout order. -/
def predecessors (f : Func) (b : BlockId) : List BlockId :=
  f.layout.filter fun p => (f.successors p).contains b

def phis (f : Func) (b : BlockId) : List InstId := (f.body b).takeWhile f.isPhi

def incoming (f : Func) (i : InstId) : List (BlockId × Value) :=
  match f.op? i with
  | some (.phi incoming) => incoming
  | _ => []

/-- Live instructions with `v` among their operands. -/
def users (f : Func) (v : Value) : List InstId :=
  f.liveInsts.filter fun i => (f.operands i).contains v

def blockNamed? (f : Func) (name : String) : Option BlockId :=
  f.layout.find? fun b => f.blockName b == name

def paramType? (f : Func) (k : Nat) : Option ParamType := f.params[k]?.map (·.type)

/-- The printed form of a value; unnamed instructions are numbered. -/
def valueName (f : Func) : Value → String
  | .const c => toString c.toInt
  | .param k =>
    match f.params[k]? with
    | some p => "%" ++ p.name
    | none => "%arg" ++ toString k
  | .inst i =>
    match (f.inst? i).bind (·.name) with
    | some n => "%" ++ n
    | none => "%v" ++ toString i.index

end Func

end LoopFusion
