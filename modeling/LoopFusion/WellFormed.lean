import LoopFusion.Flow.Dominance

/-!
Checking that a function is well formed: every handle names a slot, every live block ends in its
only terminator, phis stand first and agree with the predecessors, and every definition dominates
its uses. The first violation found is reported.
-/

namespace LoopFusion

inductive Defect
  | noBlocks (func : String)
  | unknownInLayout (b : BlockId)
  | detachedInLayout
  | repeatedInLayout
  | unknownInst (i : InstId)
  | unknownOwner (i : InstId) (b : BlockId)
  | unknownReference (i : InstId) (b : BlockId)
  | emptyBlock
  | unterminated
  | innerTerminator (i : InstId)
  | latePhi (i : InstId)
  | removedTarget (b : BlockId)
  | wrongOwner (i : InstId)
  | repeatedInst (i : InstId)
  | enteredEntry
  | missingParam (user : InstId) (k : Nat)
  | deadOperand (user definition : InstId)
  | voidOperand (user definition : InstId)
  | phiMismatch (phi : InstId)
  | undominatedEdge (name : String) (pred : BlockId) (phi : InstId)
  | undominatedUse (name : String) (user : InstId)

def Defect.message : Defect → String
  | noBlocks func => "function " ++ func ++ " has no blocks"
  | unknownInLayout b => "layout names unknown block " ++ b.text
  | detachedInLayout => "detached block is still in the layout"
  | repeatedInLayout => "block appears twice in the layout"
  | unknownInst i => "unknown instruction " ++ i.text
  | unknownOwner i b => i.text ++ " names unknown block " ++ b.text
  | unknownReference i b => i.text ++ " refers to unknown block " ++ b.text
  | emptyBlock => "empty block"
  | unterminated => "block does not end in a terminator"
  | innerTerminator i => "terminator " ++ i.text ++ " in the middle of the block"
  | latePhi i => "phi " ++ i.text ++ " after a non-phi instruction"
  | removedTarget b => "branch to removed block " ++ b.text
  | wrongOwner i => i.text ++ " records the wrong parent block"
  | repeatedInst i => i.text ++ " appears twice"
  | enteredEntry => "entry block has predecessors"
  | missingParam user k => user.text ++ " uses missing parameter " ++ toString k
  | deadOperand user d => user.text ++ " uses dead instruction " ++ d.text
  | voidOperand user d => user.text ++ " uses " ++ d.text ++ " which produces no value"
  | phiMismatch phi => "phi " ++ phi.text ++ " incoming blocks do not match the predecessors"
  | undominatedEdge name pred phi =>
    name ++ " does not dominate the edge from " ++ pred.text ++ " in phi " ++ phi.text
  | undominatedUse name user => name ++ " does not dominate its use in " ++ user.text

/-- A message with the block it is about, if any. -/
def locate (message : String) (block? : Option BlockId) : String :=
  match block? with
  | some b => message ++ " (in " ++ b.text ++ ")"
  | none => message

structure Violation where
  defect : Defect
  block? : Option BlockId

def Violation.message (v : Violation) : String := locate v.defect.message v.block?

namespace Func

/-- The block of the layout that holds an instruction, and its position there. -/
def placeOf? (f : Func) (i : InstId) : Option (BlockId × Nat) := do
  let b ← f.owner? i
  guard (f.layout.contains b)
  return (b, ← (f.body b).idxOf? i)

namespace Verify

abbrev Verdict := Except Violation Unit

def fail (b : BlockId) (d : Defect) : Verdict := .error ⟨d, some b⟩

def demand (ok : Bool) (b : BlockId) (d : Defect) : Verdict := if ok then pure () else fail b d

/-- The layout lists blocks of the arena that are not detached, each once. -/
def layoutFrom (f : Func) : List BlockId → List BlockId → Verdict
  | _, [] => pure ()
  | seen, b :: rest => do
    if f.blocks.size ≤ b.index then throw ⟨.unknownInLayout b, none⟩
    demand (f.contains b) b .detachedInLayout
    demand (!seen.contains b) b .repeatedInLayout
    layoutFrom f (b :: seen) rest

/-- Blocks that an operation names. -/
def references : Operation → List BlockId
  | .phi incoming => incoming.map (·.1)
  | op => op.targets

/-- An instruction of a live block, its owner and the blocks it names are in the arenas. -/
def handles (f : Func) (b : BlockId) (i : InstId) : Verdict :=
  match f.inst? i with
  | none => fail b (.unknownInst i)
  | some inst => do
    demand (inst.block.index < f.blocks.size) b (.unknownOwner i inst.block)
    match (references inst.op).find? fun t => f.blocks.size ≤ t.index with
    | some t => fail b (.unknownReference i t)
    | none => pure ()

/-- No terminators, and no phi after another instruction. -/
def inner (f : Func) (b : BlockId) : Bool → List InstId → Verdict
  | _, [] => pure ()
  | pastPhis, i :: rest => do
    demand (!f.isTerminator i) b (.innerTerminator i)
    demand (!(f.isPhi i && pastPhis)) b (.latePhi i)
    inner f b (pastPhis || !f.isPhi i) rest

def shape (f : Func) (b : BlockId) : Verdict :=
  match (f.body b).getLast? with
  | none => fail b .emptyBlock
  | some last => do
    demand (f.isTerminator last) b .unterminated
    inner f b false (f.body b).dropLast
    match (f.successors b).find? fun t => !f.contains t with
    | some t => fail b (.removedTarget t)
    | none => pure ()

/-- An instruction names its block as owner and stands there once. -/
def placement (f : Func) (b : BlockId) : InstId × Nat → Verdict
  | (i, k) => do
    demand (f.owner? i = some b) b (.wrongOwner i)
    demand (!((f.body b).take k).contains i) b (.repeatedInst i)

def operand (f : Func) (b : BlockId) (user : InstId) : Value → Verdict
  | .const _ => pure ()
  | .param k => demand (k < f.params.length) b (.missingParam user k)
  | .inst d => do
    demand (f.placeOf? d).isSome b (.deadOperand user d)
    demand (f.hasResult d) b (.voidOperand user d)

/-- Whether the definition `d` is available at position `k` of block `b`. -/
def available (f : Func) (g : Cfg) (dom : Dominators) (b : BlockId) (k : Nat) : Value → Bool
  | .inst d =>
    (f.placeOf? d).any fun (db, dk) =>
      if db = b then dk < k else !g.reachable b || dom.dominates db b
  | _ => true

/-- Whether the definition `d` is available at the end of `pred`. -/
def availableAfter (f : Func) (g : Cfg) (dom : Dominators) (pred : BlockId) : Value → Bool
  | .inst d => (f.placeOf? d).any fun (db, _) => !g.reachable pred || dom.dominates db pred
  | _ => true

def phi (f : Func) (g : Cfg) (dom : Dominators) (b : BlockId) (i : InstId)
    (incoming : List (BlockId × Value)) : Verdict :=
  if g.reachable b then do
    demand ((incoming.map (·.1)).isPerm (g.preds b)) b (.phiMismatch i)
    incoming.forM fun (pred, v) => do
      operand f b i v
      demand (availableAfter f g dom pred v) b (.undominatedEdge (f.valueName v) pred i)
  else pure ()

def inst (f : Func) (g : Cfg) (dom : Dominators) (b : BlockId) : InstId × Nat → Verdict
  | (i, k) =>
    match f.op? i with
    | some (.phi incoming) => phi f g dom b i incoming
    | some op =>
      op.operands.forM fun v => do
        operand f b i v
        demand (available f g dom b k v) b (.undominatedUse (f.valueName v) i)
    | none => pure ()

end Verify

open Verify in
/-- The first violation of well-formedness, if there is one. -/
def verify (f : Func) : Except Violation Unit :=
  match f.entry? with
  | none => throw ⟨.noBlocks f.name, none⟩
  | some entry => do
    layoutFrom f [] f.layout
    f.layout.forM fun b => (f.body b).forM (handles f b)
    f.layout.forM fun b => do
      shape f b
      (f.body b).zipIdx.forM (placement f b)
    let g := Cfg.ofFunc f
    demand (g.preds entry).isEmpty entry .enteredEntry
    let dom := Dominators.ofCfg g
    f.layout.forM fun b => (f.body b).zipIdx.forM (inst f g dom b)

end Func

/-- Verify every function, stopping at the first violation. -/
def Module.verify (m : Module) : Except Violation Unit := m.functions.forM Func.verify

end LoopFusion
