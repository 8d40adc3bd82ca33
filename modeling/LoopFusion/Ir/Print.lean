import LoopFusion.Ir.Func
import LoopFusion.Text.Joining

/-!
The text form of functions and modules. Everything stands on fixed lines but the parameter list,
which is broken at every comma when the first line does not fit the page.
-/

namespace LoopFusion

def defaultWidth : Nat := 100

def join (sep : String) (xs : List String) : String := sep.intercalate xs

namespace Func

def blockLabel (f : Func) (b : BlockId) : String := "%" ++ f.blockName b

def incomingText (f : Func) : BlockId × Value → String
  | (b, v) => "[" ++ f.valueName v ++ ", " ++ f.blockLabel b ++ "]"

def operationText (f : Func) : Operation → String
  | .phi incoming => "phi " ++ join ", " (incoming.map f.incomingText)
  | .binary op l r => op.mnemonic ++ " " ++ f.valueName l ++ ", " ++ f.valueName r
  | .compare p l r => "cmp " ++ p.mnemonic ++ " " ++ f.valueName l ++ ", " ++ f.valueName r
  | .gep b o => "gep " ++ f.valueName b ++ ", " ++ f.valueName o
  | .load a => "load " ++ f.valueName a
  | .store a v => "store " ++ f.valueName v ++ ", " ++ f.valueName a
  | .br t => "br " ++ f.blockLabel t
  | .condBr c t e => "condbr " ++ f.valueName c ++ ", " ++ f.blockLabel t ++ ", " ++ f.blockLabel e
  | .ret (some v) => "ret " ++ f.valueName v
  | .ret none => "ret"

def instText (f : Func) (i : InstId) : String :=
  match f.op? i with
  | some op =>
    if op.hasResult then f.valueName (.inst i) ++ " = " ++ f.operationText op
    else f.operationText op
  | none => ""

def blockText (f : Func) (b : BlockId) : String :=
  f.blockName b ++ ":" ++ String.join ((f.body b).map fun i => "\n  " ++ f.instText i)

def paramText (p : Param) : String :=
  "%" ++ p.name ++ ": " ++ match p.type with
    | .int => "int"
    | .ptr => "ptr"

/-- The first line, on one line if it takes at most `width` columns. -/
def signature (f : Func) (width : Nat) : String :=
  let start := "func @" ++ f.name ++ "("
  let params := f.params.map paramText
  let pieces := params.foldl (fun n p => n + Text.columns p) (Text.columns start)
  let flat := pieces + 2 * (params.length - 1) + 3
  let sep := if flat ≤ width then ", " else ",\n  "
  start ++ join sep params ++ ") \x7b"

def render (f : Func) (width : Nat) : String :=
  f.signature width ++ "\n" ++ join "\n" (f.layout.map f.blockText) ++ "\n\x7d"

end Func

def Module.render (m : Module) (width : Nat) : String :=
  "; module " ++ m.name ++ "\n" ++ join "\n\n" (m.functions.map (·.render width)) ++ "\n"

end LoopFusion
