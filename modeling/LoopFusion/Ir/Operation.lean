import LoopFusion.Arith.Checked

/-!
The vocabulary of the SSA form: handles, values and operations with their operands.
-/

namespace LoopFusion

/-- A slot of a function's block arena. -/
structure BlockId where
  index : Nat
deriving DecidableEq

/-- A slot of a function's instruction arena. -/
structure InstId where
  index : Nat
deriving DecidableEq

def BlockId.text (b : BlockId) : String := "bb" ++ toString b.index

def InstId.text (i : InstId) : String := "%" ++ toString i.index

/-- Parameters are integers or array bases; distinct array bases never overlap. -/
inductive ParamType
  | int
  | ptr
deriving DecidableEq

structure Param where
  name : String
  type : ParamType
deriving DecidableEq

inductive Value
  | const (c : Int64)
  | param (index : Nat)
  | inst (id : InstId)
deriving DecidableEq

namespace Value

def inst? : Value → Option InstId
  | inst i => some i
  | _ => none

def const? : Value → Option Int
  | const c => some c.toInt
  | _ => none

end Value

inductive BinaryOp
  | add
  | sub
  | mul
deriving DecidableEq

def BinaryOp.mnemonic : BinaryOp → String
  | add => "add"
  | sub => "sub"
  | mul => "mul"

/-- Signed integer comparisons. -/
inductive Comparison
  | eq
  | ne
  | slt
  | sle
  | sgt
  | sge
deriving DecidableEq

namespace Comparison

def holds : Comparison → Int → Int → Bool
  | eq, a, b => a = b
  | ne, a, b => a ≠ b
  | slt, a, b => a < b
  | sle, a, b => a ≤ b
  | sgt, a, b => b < a
  | sge, a, b => b ≤ a

/-- The comparison with its operands exchanged. -/
def swapped : Comparison → Comparison
  | eq => eq
  | ne => ne
  | slt => sgt
  | sle => sge
  | sgt => slt
  | sge => sle

/-- The comparison that holds exactly when this one does not. -/
def inverse : Comparison → Comparison
  | eq => ne
  | ne => eq
  | slt => sge
  | sle => sgt
  | sgt => sle
  | sge => slt

def mnemonic : Comparison → String
  | eq => "eq"
  | ne => "ne"
  | slt => "slt"
  | sle => "sle"
  | sgt => "sgt"
  | sge => "sge"

theorem holds_swapped (p : Comparison) (a b : Int) : p.swapped.holds b a = p.holds a b := by
  cases p <;> simp [swapped, holds, eq_comm]

theorem holds_inverse (p : Comparison) (a b : Int) : p.inverse.holds a b = !p.holds a b := by
  cases p <;> grind [inverse, holds]

end Comparison

/-- What an instruction does, with its operands. A `gep` adds an element offset to an address. -/
inductive Operation
  | phi (incoming : List (BlockId × Value))
  | binary (op : BinaryOp) (lhs rhs : Value)
  | compare (cmp : Comparison) (lhs rhs : Value)
  | gep (base offset : Value)
  | load (addr : Value)
  | store (addr value : Value)
  | br (target : BlockId)
  | condBr (cond : Value) (thenDest elseDest : BlockId)
  | ret (value : Option Value)
deriving DecidableEq

namespace Operation

def isTerminator : Operation → Bool
  | br _ | condBr .. | ret _ => true
  | _ => false

def isPhi : Operation → Bool
  | phi _ => true
  | _ => false

def isRet : Operation → Bool
  | ret _ => true
  | _ => false

def writesMemory : Operation → Bool
  | store .. => true
  | _ => false

def accessesMemory : Operation → Bool
  | load _ | store .. => true
  | _ => false

/-- Whether the instruction produces a value. -/
def hasResult (op : Operation) : Bool := !op.writesMemory && !op.isTerminator

def address? : Operation → Option Value
  | load a | store a _ => some a
  | _ => none

/-- Where a terminator may go, in operand order. -/
def targets : Operation → List BlockId
  | br t => [t]
  | condBr _ t e => [t, e]
  | _ => []

def operands : Operation → List Value
  | phi incoming => incoming.map (·.2)
  | binary _ l r | compare _ l r => [l, r]
  | gep b o => [b, o]
  | load a => [a]
  | store a v => [a, v]
  | br _ => []
  | condBr c _ _ => [c]
  | ret v => v.toList

/-- The instructions whose results are operands. -/
def uses (op : Operation) : List InstId := op.operands.filterMap Value.inst?

def mapOperands (f : Value → Value) : Operation → Operation
  | phi incoming => phi (incoming.map fun (b, v) => (b, f v))
  | binary op l r => binary op (f l) (f r)
  | compare p l r => compare p (f l) (f r)
  | gep b o => gep (f b) (f o)
  | load a => load (f a)
  | store a v => store (f a) (f v)
  | br t => br t
  | condBr c t e => condBr (f c) t e
  | ret v => ret (v.map f)

def mapTargets (f : BlockId → BlockId) : Operation → Operation
  | br t => br (f t)
  | condBr c t e => condBr c (f t) (f e)
  | op => op

def mapIncoming (f : List (BlockId × Value) → List (BlockId × Value)) : Operation → Operation
  | phi incoming => phi (f incoming)
  | op => op

theorem operands_mapOperands (f : Value → Value) (op : Operation) :
    (op.mapOperands f).operands = op.operands.map f := by
  cases op with
  | ret v => cases v <;> rfl
  | _ => simp [mapOperands, operands]

theorem targets_mapTargets (f : BlockId → BlockId) (op : Operation) :
    (op.mapTargets f).targets = op.targets.map f := by
  cases op <;> rfl

end Operation

/-- `new` in place of `old`, everything else unchanged. -/
def replace {α : Type} [DecidableEq α] (old new x : α) : α := if x = old then new else x

end LoopFusion
