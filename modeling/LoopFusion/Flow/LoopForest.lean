import LoopFusion.Flow.Dominance

/-!
Natural loops. An edge to a block that dominates its source is a back edge; the loops of all back
edges to one header are one loop. Loops nest by containment, and each one records the blocks around
it and the variable that counts its iterations.
-/

namespace LoopFusion

/-- A position in a function's list of loops. -/
structure LoopId where
  index : Nat
deriving DecidableEq

def LoopId.text (l : LoopId) : String := "L" ++ toString l.index

/-- A header phi that changes by a constant on every iteration. -/
structure InductionVariable where
  phi : InstId
  /-- The value on entry. -/
  start : Value
  /-- Never zero. -/
  step : Int
  /-- The instruction that computes the next value. -/
  next : InstId
deriving DecidableEq

namespace InductionVariable

def value (iv : InductionVariable) : Value := .inst iv.phi

/-- Whether it counts 0, 1, 2, … -/
def isCanonical (iv : InductionVariable) : Bool := iv.start = .const 0 && iv.step = 1

end InductionVariable

/-- A header with its back edges and all blocks of the loop in layout order. -/
structure Region where
  header : BlockId
  latches : List BlockId
  blocks : List BlockId

namespace Region

/-- The layout without repetitions; a block stands where it comes last. -/
def lineUp (layout : List BlockId) : List BlockId := layout.reverse.eraseDups.reverse

/-- Reachable sources of back edges to `h`. -/
def latchesOf (g : Cfg) (dom : Dominators) (h : BlockId) : List BlockId :=
  (g.preds h).filter fun p => g.reachable p && dom.dominates h p

/-- Blocks that reach a latch without passing the header. -/
def interior (g : Cfg) (h : BlockId) (latches : List BlockId) : List BlockId :=
  Flow.searchFrom (fun b => if b = h then [] else (g.preds b).filter g.reachable) (g.capacity + 1)
    latches

def ofHeader? (f : Func) (g : Cfg) (dom : Dominators) (h : BlockId) : Option Region :=
  let latches := latchesOf g dom h
  if latches.isEmpty then none
  else
    let members := h :: interior g h latches
    some ⟨h, latches, (lineUp f.layout).filter members.contains⟩

/-- One region per header, in reverse postorder of the headers. -/
def all (f : Func) (g : Cfg) (dom : Dominators) : List Region :=
  g.order.filterMap (ofHeader? f g dom)

def contains (r : Region) (b : BlockId) : Bool := r.blocks.contains b

/-- The first of the smallest regions. -/
def smallest? (rs : List (Region × Nat)) : Option LoopId :=
  (rs.minOn? fun (r, _) => r.blocks.length).map fun (_, i) => ⟨i⟩

/-- The smallest other region around the header of region `i`. -/
def parent? (rs : List Region) (i : Nat) (r : Region) : Option LoopId :=
  smallest? (rs.zipIdx.filter fun (s, j) => j ≠ i && s.contains r.header)

/-- Edges that leave the region from the given blocks, by target, each target once. -/
def exitsFrom (g : Cfg) (r : Region) (blocks : List BlockId) : List BlockId :=
  (blocks.flatMap fun b => (g.succs b).filter fun s => !r.contains s).eraseDups

def exits (g : Cfg) (r : Region) : List BlockId := r.exitsFrom g r.blocks

def nonLatchExits (g : Cfg) (r : Region) : List BlockId :=
  r.exitsFrom g (r.blocks.filter fun b => !r.latches.contains b)

def exiting (g : Cfg) (r : Region) : List BlockId :=
  r.blocks.filter fun b => (g.succs b).any fun s => !r.contains s

/-- The only block outside with an edge to the header, if it goes nowhere else. -/
def preheader? (g : Cfg) (r : Region) : Option BlockId :=
  (only? ((g.preds r.header).filter fun p => !r.contains p)).filter fun p =>
    g.succs p = [r.header]

/-- Where a block that holds nothing but a jump leads. -/
def forward? (f : Func) (b : BlockId) : Option BlockId :=
  match (f.body b).map f.op? with
  | [some (.br t)] => some t
  | _ => none

/-- The block that branches either to the preheader or past the loop. -/
def guard? (f : Func) (g : Cfg) (r : Region) (preheader : BlockId) : Option BlockId :=
  match g.preds preheader, r.exits g with
  | [guard], [exit] =>
    if r.contains guard then none
    else
      match f.exitOp? guard with
      | some (.condBr _ t e) =>
        let other? :=
          if t = preheader then some e
          else if e = preheader then some t
          else none
        if other? = some exit || (other?.isSome && other? = forward? f exit) then some guard
        else none
      | _ => none
  | _, _ => none

/-- The constant that `op` adds to `this`. -/
def increment? (this : Value) : Operation → Option Int
  | .binary .add l r =>
    match l, r with
    | l, .const c => if l = this then some c.toInt else leftConstant? l r
    | l, r => leftConstant? l r
  | .binary .sub l (.const c) => if l = this then checked (-c.toInt) else none
  | _ => none
where
  leftConstant? : Value → Value → Option Int
    | .const c, r => if r = this then some c.toInt else none
    | _, _ => none

/-- The induction variable behind a header phi, if it is one. -/
def ivOf? (f : Func) (preheader latch : BlockId) (phi : InstId) : Option InductionVariable := do
  let incoming := f.incoming phi
  guard (incoming.length = 2)
  let start ← incoming.lookup preheader
  let next ← (← incoming.lookup latch).inst?
  let step ← increment? (.inst phi) (← f.op? next)
  guard (step ≠ 0)
  return ⟨phi, start, step, next⟩

end Region

/-- A loop with what surrounds it. -/
structure Loop where
  id : LoopId
  header : BlockId
  latches : List BlockId
  /-- All blocks of the loop in layout order. -/
  blocks : List BlockId
  /-- The smallest loop around this one. -/
  parent? : Option LoopId
  /-- The only block that enters the loop, if it goes nowhere else. -/
  preheader? : Option BlockId
  guard? : Option BlockId
  /-- Blocks outside with an edge from inside. -/
  exits : List BlockId
  nonLatchExits : List BlockId
  /-- Blocks inside with an edge to the outside. -/
  exiting : List BlockId
  iv? : Option InductionVariable

namespace Loop

def contains (l : Loop) (b : BlockId) : Bool := l.blocks.contains b

def latch? (l : Loop) : Option BlockId := only? l.latches

/-- Where control comes from: the guard if there is one, else the preheader. -/
def entry? (l : Loop) : Option BlockId := l.guard? <|> l.preheader?

/-- Blocks other than the header and the latches. -/
def bodyBlocks (l : Loop) : List BlockId :=
  l.blocks.filter fun b => b ≠ l.header && !l.latches.contains b

def isSimplified (l : Loop) : Bool := l.latch?.isSome && l.preheader?.isSome && l.iv?.isSome

def ofRegion (f : Func) (g : Cfg) (rs : List Region) (r : Region) (i : Nat) : Loop :=
  let preheader? := r.preheader? g
  { id := ⟨i⟩
    header := r.header
    latches := r.latches
    blocks := r.blocks
    parent? := Region.parent? rs i r
    preheader? := preheader?
    guard? := preheader?.bind (r.guard? f g)
    exits := r.exits g
    nonLatchExits := r.nonLatchExits g
    exiting := r.exiting g
    iv? := do (f.phis r.header).findSome? (Region.ivOf? f (← preheader?) (← only? r.latches)) }

end Loop

/-- All loops of a function, enclosing loops first; a loop's identifier is its position. -/
structure LoopForest where
  loops : List Loop

namespace LoopForest

def ofCfg (f : Func) (g : Cfg) (dom : Dominators) : LoopForest :=
  let rs := Region.all f g dom
  ⟨rs.zipIdx.map fun (r, i) => .ofRegion f g rs r i⟩

def loop? (t : LoopForest) (l : LoopId) : Option Loop := t.loops[l.index]?

def ids (t : LoopForest) : List LoopId := t.loops.map (·.id)

def parent? (t : LoopForest) (l : LoopId) : Option LoopId := (t.loop? l).bind (·.parent?)

/-- The loops around `l`, innermost first. -/
def climb (t : LoopForest) : Nat → LoopId → List LoopId
  | 0, _ => []
  | fuel + 1, l =>
    match t.parent? l with
    | some p => p :: climb t fuel p
    | none => []

def ancestors (t : LoopForest) (l : LoopId) : List LoopId := t.climb t.loops.length l

def depth (t : LoopForest) (l : LoopId) : Nat := (t.ancestors l).length + 1

/-- Whether `outer` is `inner` or a loop around it. -/
def encloses (t : LoopForest) (outer inner : LoopId) : Bool :=
  inner = outer || (t.ancestors inner).contains outer

def topLevel (t : LoopForest) : List LoopId :=
  (t.loops.filter (·.parent?.isNone)).map (·.id)

def children (t : LoopForest) (l : LoopId) : List LoopId :=
  (t.loops.filter (·.parent? = some l)).map (·.id)

def subtree (t : LoopForest) : Nat → LoopId → List LoopId
  | 0, _ => []
  | fuel + 1, l => l :: (t.children l).flatMap (subtree t fuel)

/-- Every loop, followed by the loops inside it. -/
def preorder (t : LoopForest) : List LoopId := t.topLevel.flatMap (t.subtree t.loops.length)

/-- The smallest loop around a block. -/
def loopFor? (t : LoopForest) (b : BlockId) : Option LoopId :=
  ((t.loops.filter (·.contains b)).minOn? (·.blocks.length)).map (·.id)

def withHeader? (t : LoopForest) (h : BlockId) : Option Loop := t.loops.find? (·.header = h)

end LoopForest

/-- What the control flow of a function says. -/
structure FlowFacts where
  func : Func
  cfg : Cfg
  dom : Dominators
  postDom : PostDominators
  loops : LoopForest

def FlowFacts.ofFunc (f : Func) : FlowFacts :=
  let g := Cfg.ofFunc f
  let dom := Dominators.ofCfg g
  ⟨f, g, dom, .ofCfg g, .ofCfg f g dom⟩

end LoopFusion
