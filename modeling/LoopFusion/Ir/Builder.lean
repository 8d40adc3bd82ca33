import LoopFusion.Ir.Edit

/-!
Writing a function block by block. New instructions go to the end of the current block; a counted
loop takes the current block as its preheader and leaves an empty exit block current.
-/

namespace LoopFusion

structure Builder where
  func : Func
  current : BlockId

abbrev Build := StateM Builder

structure CountedLoop where
  preheader : BlockId
  header : BlockId
  body : BlockId
  tail : BlockId
  latch : BlockId
  exit : BlockId
  iv : Value
  next : Value
deriving DecidableEq

/-- A counted loop whose body is still being written. -/
structure OpenLoop where
  name : String
  step : Int64
  preheader : BlockId
  header : BlockId
  body : BlockId
  iv : InstId
  cond : Value

/-- A builder positioned in an empty entry block. -/
def Builder.start (name : String) : Builder :=
  let (entry, func) := (Func.empty name []).addBlock "entry"
  ⟨func, entry⟩

namespace Build

/-- Perform an edit that answers something. -/
def edit {α : Type} (g : Func → α × Func) : Build α := do
  let b ← get
  let (a, func) := g b.func
  set { b with func := func }
  return a

def param (name : String) (type : ParamType) : Build Value :=
  edit fun f => (.param f.params.length, { f with params := f.params ++ [⟨name, type⟩] })

def createBlock (name : String) : Build BlockId := edit fun f => f.addBlock name

def switchTo (b : BlockId) : Build Unit := modify fun s => { s with current := b }

def current : Build BlockId := return (← get).current

def emit (op : Operation) : Build InstId := do
  let b ← current
  edit fun f => f.appendInst b op none

def value (op : Operation) : Build Value := return .inst (← emit op)

def setName (v : Value) (name : String) : Build Unit :=
  match v with
  | .inst i => edit fun f => ((), f.setName i (some name))
  | _ => pure ()

def addIncoming (phi : Value) (b : BlockId) (v : Value) : Build Unit :=
  match phi with
  | .inst i => edit fun f => ((), f.modifyOp i (.mapIncoming (· ++ [(b, v)])))
  | _ => pure ()

/-- The test that keeps a loop with this step running. -/
def continueTest (step : Int64) : Comparison := if step.toInt < 0 then .sgt else .slt

def openLoop (name : String) (start bound : Value) (step : Int64) : Build OpenLoop := do
  let preheader ← current
  let header ← createBlock (name ++ ".header")
  let body ← createBlock (name ++ ".body")
  discard <| emit (.br header)
  switchTo header
  let iv ← emit (.phi [(preheader, start)])
  setName (.inst iv) name
  let cond ← value (.compare (continueTest step) (.inst iv) bound)
  switchTo body
  return ⟨name, step, preheader, header, body, iv, cond⟩

def closeLoop (l : OpenLoop) : Build CountedLoop := do
  let tail ← current
  let latch ← createBlock (l.name ++ ".latch")
  let exit ← createBlock (l.name ++ ".exit")
  discard <| emit (.br latch)
  switchTo latch
  let next ← value (.binary .add (.inst l.iv) (.const l.step))
  setName next (l.name ++ ".next")
  discard <| emit (.br l.header)
  addIncoming (.inst l.iv) latch next
  switchTo l.header
  discard <| emit (.condBr l.cond l.body exit)
  switchTo exit
  return ⟨l.preheader, l.header, l.body, tail, latch, exit, .inst l.iv, next⟩

/-- `for iv = start; iv < bound; iv += step`, with `>` when the step is negative. -/
def countedLoop (name : String) (start bound : Value) (step : Int64) (body : Value → Build Unit) :
    Build CountedLoop := do
  let l ← openLoop name start bound step
  body (.inst l.iv)
  closeLoop l

end Build

def Func.build {α : Type} (name : String) (steps : Build α) : Func :=
  (steps.run (Builder.start name)).2.func

end LoopFusion
