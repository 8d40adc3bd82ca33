import LoopFusion.Ir.Func

/-!
Edits of a function. Arenas only grow: an edit changes operations, block lists or the layout, and
never frees or reuses a handle.
-/

namespace LoopFusion.Func

def empty (name : String) (params : List Param) : Func := ⟨name, params, #[], #[], []⟩

/-- A new empty block at the end of the layout. -/
def addBlock (f : Func) (name : String) : BlockId × Func :=
  let b : BlockId := ⟨f.blocks.size⟩
  (b, { f with blocks := f.blocks.push ⟨name, [], false⟩, layout := f.layout ++ [b] })

def modifyBlock (f : Func) (b : BlockId) (g : Block → Block) : Func :=
  { f with blocks := f.blocks.modify b.index g }

def modifyInst (f : Func) (i : InstId) (g : Inst → Inst) : Func :=
  { f with insts := f.insts.modify i.index g }

def modifyOp (f : Func) (i : InstId) (g : Operation → Operation) : Func :=
  f.modifyInst i fun inst => { inst with op := g inst.op }

def setName (f : Func) (i : InstId) (name : Option String) : Func :=
  f.modifyInst i fun inst => { inst with name := name }

/-- A new instruction owned by `b` and placed in its list by `place`. -/
def addInst (f : Func) (b : BlockId) (op : Operation) (name : Option String)
    (place : InstId → List InstId → List InstId) : InstId × Func :=
  let i : InstId := ⟨f.insts.size⟩
  let f := { f with insts := f.insts.push ⟨op, b, name⟩ }
  (i, f.modifyBlock b fun blk => { blk with insts := place i blk.insts })

def appendInst (f : Func) (b : BlockId) (op : Operation) (name : Option String) : InstId × Func :=
  f.addInst b op name fun i is => is ++ [i]

/-- A new instruction right before the terminator, or at the end of a block that has none. -/
def insertBeforeTerminator (f : Func) (b : BlockId) (op : Operation) (name : Option String) :
    InstId × Func :=
  match f.terminator? b with
  | some t => f.addInst b op name fun i is => is.dropLast ++ [i, t]
  | none => f.appendInst b op name

/-- Replace the operation that ends `b`, keeping its handle. -/
def setTerminator (f : Func) (b : BlockId) (op : Operation) : Option InstId × Func :=
  match f.terminator? b with
  | some t => (some t, f.modifyOp t fun _ => op)
  | none => (none, f)

/-- Send `b`'s edges to `old` to `new`; how many there were. -/
def replaceSuccessor (f : Func) (b old new : BlockId) : Nat × Func :=
  match f.terminator? b with
  | some t => ((f.successors b).count old, f.modifyOp t (.mapTargets (replace old new)))
  | none => (0, f)

/-- Turn the uses of `old` in one instruction into `new`; how many there were. -/
def replaceUsesIn (old new : Value) (f : Func) (i : InstId) : Nat × Func :=
  ((f.operands i).count old, f.modifyOp i (.mapOperands (replace old new)))

/-- Turn every use of `old` in live instructions into `new`; how many there were. -/
def replaceAllUses (f : Func) (old new : Value) : Nat × Func :=
  f.liveInsts.foldl
    (fun (n, f) i =>
      let (k, f) := replaceUsesIn old new f i
      (n + k, f))
    (0, f)

def modifyPhis (f : Func) (b : BlockId)
    (g : List (BlockId × Value) → List (BlockId × Value)) : Func :=
  (f.phis b).foldl (fun f i => f.modifyOp i (.mapIncoming g)) f

/-- Relabel the entries from `old` in the phis of `b` as coming from `new`. -/
def replacePhiIncomingBlock (f : Func) (b old new : BlockId) : Func :=
  f.modifyPhis b fun incoming => incoming.map fun (p, v) => (replace old new p, v)

/-- Drop the entries from `pred` in the phis of `b`. -/
def removePhiIncoming (f : Func) (b pred : BlockId) : Func :=
  f.modifyPhis b fun incoming => incoming.filter fun (p, _) => p ≠ pred

/-- Retire a block: it leaves the layout and its instructions are no longer live. -/
def removeBlock (f : Func) (b : BlockId) : Func :=
  { f.modifyBlock b fun blk => { blk with detached := true } with
    layout := f.layout.filter (· ≠ b) }

/-- Place `blocks`, in this order, right before `anchor`, or last if `anchor` is not there. -/
def moveBlocksBefore (f : Func) (blocks : List BlockId) (anchor : BlockId) : Func :=
  let rest := f.layout.filter fun b => !blocks.contains b
  { f with
    layout := rest.takeWhile (· ≠ anchor) ++ blocks ++ rest.dropWhile (· ≠ anchor) }

end LoopFusion.Func
