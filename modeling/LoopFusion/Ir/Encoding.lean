import LoopFusion.Ir.Func
import LoopFusion.Json.Fields
import LoopFusion.Json.Reader

/-!
Modules as JSON documents, both ways.
-/

namespace LoopFusion

namespace Encode

open Json (int nat str arr obj)

def blockId (b : BlockId) : Json := nat b.index

def instId (i : InstId) : Json := nat i.index

def paramType : ParamType → Json
  | .int => str "Int"
  | .ptr => str "Ptr"

def param (p : Param) : Json := obj [("name", str p.name), ("ty", paramType p.type)]

def value : Value → Json
  | .const c => obj [("Const", int c.toInt)]
  | .param k => obj [("Param", nat k)]
  | .inst i => obj [("Inst", instId i)]

def binaryOp : BinaryOp → Json
  | .add => str "Add"
  | .sub => str "Sub"
  | .mul => str "Mul"

def comparisonName : Comparison → String
  | .eq => "Eq"
  | .ne => "Ne"
  | .slt => "Slt"
  | .sle => "Sle"
  | .sgt => "Sgt"
  | .sge => "Sge"

def comparison (p : Comparison) : Json := str (comparisonName p)

def incoming : BlockId × Value → Json
  | (b, v) => arr [blockId b, value v]

def operation : Operation → Json
  | .phi inc => obj [("Phi", obj [("incoming", .ofList incoming inc)])]
  | .binary op l r =>
    obj [("Binary", obj [("op", binaryOp op), ("lhs", value l), ("rhs", value r)])]
  | .compare p l r =>
    obj [("Cmp", obj [("pred", comparison p), ("lhs", value l), ("rhs", value r)])]
  | .gep b o => obj [("Gep", obj [("base", value b), ("offset", value o)])]
  | .load a => obj [("Load", obj [("addr", value a)])]
  | .store a v => obj [("Store", obj [("addr", value a), ("value", value v)])]
  | .br t => obj [("Br", obj [("target", blockId t)])]
  | .condBr c t e =>
    obj [("CondBr", obj [("cond", value c), ("then_dest", blockId t), ("else_dest", blockId e)])]
  | .ret v => obj [("Ret", obj [("value", .ofOption value v)])]

def inst (i : Inst) : Json :=
  obj [("kind", operation i.op), ("block", blockId i.block), ("name", .ofOption str i.name)]

def block (b : Block) : Json :=
  obj [("name", str b.name), ("insts", .ofList instId b.insts), ("detached", .bool b.detached)]

def func (f : Func) : Json :=
  obj [("name", str f.name), ("params", .ofList param f.params),
    ("blocks", .ofList block f.blocks.toList), ("insts", .ofList inst f.insts.toList),
    ("layout", .ofList blockId f.layout)]

def wholeModule (m : Module) : Json :=
  obj [("name", str m.name), ("functions", .ofList func m.functions)]

end Encode

namespace Decode

open Json (Slot fields? variant? plainVariant? list? nullable? str? bool? int64? handle?)

def blockId (j : Json) : Option BlockId := (handle? j).map BlockId.mk

def instId (j : Json) : Option InstId := (handle? j).map InstId.mk

def paramType (j : Json) : Option ParamType := do
  match ← plainVariant? j with
  | "Int" => some .int
  | "Ptr" => some .ptr
  | _ => none

def param (j : Json) : Option Param := do
  match ← fields? ["name", "ty"] j with
  | [name, type] => return ⟨← name.required str?, ← type.required paramType⟩
  | _ => none

def value (j : Json) : Option Value := do
  match ← variant? j with
  | ("Const", some c) => (int64? c).map .const
  | ("Param", some k) => (handle? k).map .param
  | ("Inst", some i) => (instId i).map .inst
  | _ => none

def binaryOp (j : Json) : Option BinaryOp := do
  match ← plainVariant? j with
  | "Add" => some .add
  | "Sub" => some .sub
  | "Mul" => some .mul
  | _ => none

def comparison (j : Json) : Option Comparison := do
  match ← plainVariant? j with
  | "Eq" => some .eq
  | "Ne" => some .ne
  | "Slt" => some .slt
  | "Sle" => some .sle
  | "Sgt" => some .sgt
  | "Sge" => some .sge
  | _ => none

def incoming : Json → Option (BlockId × Value)
  | .arr [b, v] => return (← blockId b, ← value v)
  | _ => none

/-- The names of the fields of an operation, by the name of the operation. -/
def operationFields : String → List String
  | "Phi" => ["incoming"]
  | "Binary" => ["op", "lhs", "rhs"]
  | "Cmp" => ["pred", "lhs", "rhs"]
  | "Gep" => ["base", "offset"]
  | "Load" => ["addr"]
  | "Store" => ["addr", "value"]
  | "Br" => ["target"]
  | "CondBr" => ["cond", "then_dest", "else_dest"]
  | "Ret" => ["value"]
  | _ => []

def operationOf (name : String) (slots : List Slot) : Option Operation :=
  match name, slots with
  | "Phi", [inc] => return .phi (← inc.required (list? incoming))
  | "Binary", [op, l, r] =>
    return .binary (← op.required binaryOp) (← l.required value) (← r.required value)
  | "Cmp", [p, l, r] =>
    return .compare (← p.required comparison) (← l.required value) (← r.required value)
  | "Gep", [b, o] => return .gep (← b.required value) (← o.required value)
  | "Load", [a] => return .load (← a.required value)
  | "Store", [a, v] => return .store (← a.required value) (← v.required value)
  | "Br", [t] => return .br (← t.required blockId)
  | "CondBr", [c, t, e] =>
    return .condBr (← c.required value) (← t.required blockId) (← e.required blockId)
  | "Ret", [v] => return .ret (← v.optional (nullable? value))
  | _, _ => none

def operation (j : Json) : Option Operation := do
  match ← variant? j with
  | (name, some content) => operationOf name (← fields? (operationFields name) content)
  | _ => none

def inst (j : Json) : Option Inst := do
  match ← fields? ["kind", "block", "name"] j with
  | [kind, block, name] =>
    return ⟨← kind.required operation, ← block.required blockId,
      ← name.withDefault none (nullable? str?)⟩
  | _ => none

def block (j : Json) : Option Block := do
  match ← fields? ["name", "insts", "detached"] j with
  | [name, insts, detached] =>
    return ⟨← name.required str?, ← insts.required (list? instId),
      ← detached.withDefault false bool?⟩
  | _ => none

def func (j : Json) : Option Func := do
  match ← fields? ["name", "params", "blocks", "insts", "layout"] j with
  | [name, params, blocks, insts, layout] =>
    return ⟨← name.required str?, ← params.required (list? param),
      (← blocks.required (list? block)).toArray, (← insts.required (list? inst)).toArray,
      ← layout.required (list? blockId)⟩
  | _ => none

def wholeModule (j : Json) : Option Module := do
  match ← fields? ["name", "functions"] j with
  | [name, functions] => return ⟨← name.required str?, ← functions.required (list? func)⟩
  | _ => none

end Decode

def Func.parse (text : String) : Option Func := (Json.parse text).bind Decode.func

def Module.parse (text : String) : Option Module := (Json.parse text).bind Decode.wholeModule

/-- The document written for people. -/
def Module.document (m : Module) : String := (Encode.wholeModule m).pretty

/-- The document on one line. -/
def Module.compactDocument (m : Module) : String := (Encode.wholeModule m).compact

end LoopFusion
