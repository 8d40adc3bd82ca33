import LoopFusion.Proofs.Guarded.Dominators
import LoopFusion.Proofs.Verified

/-!
The verifier with every table read at its own risk. A read or write outside a table leaves no
verdict at all, and neither does a loop without an end. Each check follows the one it is made
after, provided that the reads it rests on have been checked before.
-/

namespace LoopFusion.Guarded

open Func.Verify (Verdict demand layoutFrom references)

abbrev Checked (α : Type) := ExceptT Violation Option α

/-- What stands in a table, where there must be something. -/
def look {α : Type} (entry : Option α) : Checked α := ExceptT.lift entry

def say {α : Type} (v : Except Violation α) : Checked α := ExceptT.mk (some v)

abbrev Positions := List (InstId × BlockId × Nat)

structure Tables where
  graph : Cfg
  places : Array (Option Nat)
  dom : Option IdomTable
  positions : Positions

section

variable (f : Func)

def body (b : BlockId) : Checked (List InstId) := do
  return (← look f.blocks[b.index]?).insts

def op (i : InstId) : Checked Operation := do
  return (← look f.insts[i.index]?).op

def valueName : Value → Checked String
  | .const c => return toString c.toInt
  | .param k =>
    match f.params[k]? with
    | some p => return "%" ++ p.name
    | none => return "%arg" ++ toString k
  | .inst i => do
    match (← look f.insts[i.index]?).name with
    | some n => return "%" ++ n
    | none => return "%v" ++ toString i.index

def handles (b : BlockId) (i : InstId) : Checked Unit := do
  say (demand (i.index < f.insts.size) b (.unknownInst i))
  let inst ← look f.insts[i.index]?
  say (demand (inst.block.index < f.blocks.size) b (.unknownOwner i inst.block))
  match (references inst.op).find? fun t => f.blocks.size ≤ t.index with
  | some t => say (Func.Verify.fail b (.unknownReference i t))
  | none => return ()

def inner (b : BlockId) : Bool → List InstId → Checked Unit
  | _, [] => return ()
  | pastPhis, i :: rest => do
    let op ← op f i
    say (demand (!op.isTerminator) b (.innerTerminator i))
    say (demand (!(op.isPhi && pastPhis)) b (.latePhi i))
    inner b (pastPhis || !op.isPhi) rest

def shape (b : BlockId) : Checked Unit := do
  let is ← body f b
  match is.getLast? with
  | none => say (Func.Verify.fail b .emptyBlock)
  | some last =>
    let op ← op f last
    say (demand op.isTerminator b .unterminated)
    inner f b false is.dropLast
    match op.targets.find? fun t => !f.contains t with
    | some t => say (Func.Verify.fail b (.removedTarget t))
    | none => return ()

def place (b : BlockId) (ps : Positions) : InstId × Nat → Checked Positions
  | (i, k) => do
    let inst ← look f.insts[i.index]?
    say (demand (inst.block = b) b (.wrongOwner i))
    say (demand (ps.lookup i).isNone b (.repeatedInst i))
    return (i, b, k) :: ps

def placeAll (ps : Positions) (b : BlockId) : Checked Positions := do
  shape f b
  (← body f b).zipIdx.foldlM (place f b) ps

def operand (t : Tables) (b : BlockId) (user : InstId) : Value → Checked Unit
  | .const _ => return ()
  | .param k => say (demand (k < f.params.length) b (.missingParam user k))
  | .inst d => do
    say (demand (t.positions.lookup d).isSome b (.deadOperand user d))
    say (demand (← op f d).hasResult b (.voidOperand user d))

/-- Only a value that is not available is looked up for its name. -/
def require (ok : Bool) (b : BlockId) (v : Value) (d : String → Defect) : Checked Unit :=
  if ok then return () else do say (Func.Verify.fail b (d (← valueName f v)))

/-- Whether control comes to `d` before `b`, if it ever comes to `b`. -/
noncomputable def before (t : Tables) (d b : BlockId) : Checked Bool :=
  if reached t.places b then look (dominates t.dom d b) else return true

noncomputable def available (t : Tables) (b : BlockId) (k : Nat) : Value → Checked Bool
  | .inst d => do
    let (db, dk) ← look (t.positions.lookup d)
    if db = b then return dk < k else before t db b
  | _ => return true

noncomputable def availableAfter (t : Tables) (pred : BlockId) : Value → Checked Bool
  | .inst d => do
    let (db, _) ← look (t.positions.lookup d)
    before t db pred
  | _ => return true

noncomputable def phi (t : Tables) (b : BlockId) (i : InstId) (incoming : List (BlockId × Value)) :
    Checked Unit :=
  if reached t.places b then do
    let preds ← look t.graph.predTable[b.index]?
    say (demand ((incoming.map (·.1)).isPerm preds) b (.phiMismatch i))
    incoming.forM fun (pred, v) => do
      operand f t b i v
      require f (← availableAfter t pred v) b v (.undominatedEdge · pred i)
  else return ()

noncomputable def inst (t : Tables) (b : BlockId) : InstId × Nat → Checked Unit
  | (i, k) => do
    match ← op f i with
    | .phi incoming => phi f t b i incoming
    | op =>
      op.operands.forM fun v => do
        operand f t b i v
        require f (← available t b k v) b v (.undominatedUse · i)

noncomputable def verify : Checked Unit :=
  match f.entry? with
  | none => say (.error ⟨.noBlocks f.name, none⟩)
  | some entry => do
    say (layoutFrom f [] f.layout)
    f.layout.forM fun b => do (← body f b).forM (handles f b)
    let positions ← f.layout.foldlM (placeAll f) []
    let (graph, places) ← look (cfg f)
    say (demand (← look graph.predTable[entry.index]?).isEmpty entry .enteredEntry)
    let dom ← look (dominators graph)
    let t : Tables := ⟨graph, places, dom, positions⟩
    f.layout.forM fun b => do (← body f b).zipIdx.forM (inst f t b)

end

/-- A check that goes through with a given verdict; what it leaves if it passes is as `Q` says. -/
def Follows {α : Type} (x : Checked α) (v : Verdict) (Q : α → Prop) : Prop :=
  match v with
  | .ok _ => ∃ a, x = say (.ok a) ∧ Q a
  | .error e => x = say (.error e)

namespace Follows

variable {α β : Type} {x : Checked α} {k : α → Checked β} {v w : Verdict} {Q : α → Prop}
  {R : β → Prop}

theorem done {a : α} (h : Q a) : Follows (pure a) (pure ()) Q := ⟨a, rfl, h⟩

theorem said (v : Verdict) : Follows (say v) v fun _ => True := by
  cases v with
  | ok a => exact ⟨a, rfl, trivial⟩
  | error e => rfl

theorem bind (h : Follows x v Q) (hk : ∀ a, v = .ok () → Q a → Follows (k a) w R) :
    Follows (x >>= k) (v >>= fun _ => w) R := by
  cases v with
  | ok =>
    obtain ⟨a, rfl, ha⟩ := h
    exact hk a rfl ha
  | error e =>
    obtain rfl : x = say (.error e) := h
    rfl

theorem mono {Q' : α → Prop} (h : Follows x v Q) (hQ : ∀ a, v = .ok () → Q a → Q' a) :
    Follows x v Q' := by
  cases v with
  | ok =>
    obtain ⟨a, hx, ha⟩ := h
    exact ⟨a, hx, hQ a rfl ha⟩
  | error e => exact h

theorem looked {o : Option α} {a : α} (h : o = some a) (hk : Follows (k a) w R) :
    Follows (look o >>= k) w R := by
  subst h
  exact hk

theorem demanded {ok ok' : Bool} {b : BlockId} {d : Defect} {k : Unit → Checked β}
    (h : ok = ok') (hk : ok' = true → Follows (k ()) w R) :
    Follows (say (demand ok b d) >>= k) (demand ok' b d >>= fun _ => w) R := by
  subst h
  exact (said _).bind fun _ h _ => hk (Func.Verify.demand_eq_ok.1 h)

theorem demandedLast {ok ok' : Bool} {b : BlockId} {d : Defect} {k : Unit → Checked β}
    (h : ok = ok') (hk : ok' = true → Follows (k ()) (pure ()) R) :
    Follows (say (demand ok b d) >>= k) (demand ok' b d) R := by
  have hlast := demanded (b := b) (d := d) h hk
  rwa [bind_pure_unit] at hlast

theorem forM {l : List α} {g : α → Checked Unit} {g' : α → Verdict}
    (h : ∀ a ∈ l, Follows (g a) (g' a) fun _ => True) :
    Follows (l.forM g) (l.forM g') fun _ => True := by
  induction l with
  | nil => exact done trivial
  | cons a l ih =>
    rw [List.forall_mem_cons] at h
    exact h.1.bind fun _ _ _ => ih h.2

theorem eq_say {x : Checked Unit} (h : Follows x v fun _ => True) : x = say v := by
  cases v with
  | ok =>
    obtain ⟨a, rfl, -⟩ := h
    rfl
  | error e => exact h

end Follows

variable {f : Func} {b : BlockId} {i d : InstId} {o : Operation} {v : Value} {ps : Positions}
  {done : List BlockId} {k : Nat}

theorem handles_follows : Follows (handles f b i) (Func.Verify.handles f b i) fun _ => True := by
  rw [handles, Func.Verify.handles]
  cases h : f.inst? i with
  | none =>
    have hlt : ¬ i.index < f.insts.size := fun hlt => by
      rw [Func.inst?, Array.getElem?_eq_getElem hlt] at h
      cases h
    simp only [demand, hlt, decide_false]
    rfl
  | some inst =>
    have hlt : i.index < f.insts.size := (Array.getElem?_eq_some_iff.1 h).1
    simp only [demand, hlt, decide_true]
    refine .looked h (.demanded rfl fun _ => ?_)
    cases (references inst.op).find? fun t => f.blocks.size ≤ t.index with
    | none => exact .done trivial
    | some t => exact .said _

theorem op_eq (h : f.op? i = some o) : op f i = pure o := by
  obtain ⟨inst, hinst, rfl⟩ := Option.map_eq_some_iff.1 h
  have hslot : f.insts[i.index]? = some inst := hinst
  rw [op, hslot]
  rfl

theorem valueName_eq (h : ∀ d, v = .inst d → ∃ o, f.op? d = some o) :
    valueName f v = pure (f.valueName v) := by
  cases v with
  | const c => rfl
  | param k =>
    rw [valueName, Func.valueName]
    cases f.params[k]? <;> rfl
  | inst i =>
    obtain ⟨o, ho⟩ := h i rfl
    obtain ⟨inst, hinst, -⟩ := Option.map_eq_some_iff.1 ho
    have hslot : f.insts[i.index]? = some inst := hinst
    rw [valueName, Func.valueName, hslot, hinst, Option.bind_some]
    change (match inst.name with | some n => _ | none => _) = _
    cases inst.name <;> rfl

theorem inner_follows {pastPhis : Bool} {is : List InstId}
    (h : ∀ i ∈ is, ∃ o, f.op? i = some o) :
    Follows (inner f b pastPhis is) (Func.Verify.inner f b pastPhis is) fun _ => True := by
  induction is generalizing pastPhis with
  | nil => exact .done trivial
  | cons i is ih =>
    rw [List.forall_mem_cons] at h
    obtain ⟨o, ho⟩ := h.1
    rw [inner, Func.Verify.inner, op_eq ho, pure_bind, Func.isTerminator_of_op? ho,
      Func.isPhi_of_op? ho]
    exact .demanded rfl fun _ => .demanded rfl fun _ => ih h.2

theorem body_eq (hb : b.index < f.blocks.size) : body f b = pure (f.body b) := by
  rw [body, Func.body, Func.block?, Array.getElem?_eq_getElem hb]
  rfl

section Slots

variable (h : Slotted f) (hb : b ∈ f.layout)

include h hb

theorem exists_op (hi : i ∈ f.body b) : ∃ o, f.op? i = some o := by
  obtain ⟨inst, hinst⟩ := h.known b hb i hi
  exact ⟨inst.op, by rw [Func.op?, hinst, Option.map_some]⟩

theorem shape_follows : Follows (shape f b) (Func.Verify.shape f b) fun _ => True := by
  rw [shape, Func.Verify.shape, body_eq (h.arena.layout b hb), pure_bind]
  cases hlast : (f.body b).getLast? with
  | none => exact .said _
  | some last =>
    obtain ⟨o, ho⟩ := exists_op h hb (List.mem_of_getLast? hlast)
    dsimp only
    rw [op_eq ho, pure_bind]
    have hterm := Func.isTerminator_of_op? ho
    refine .demanded hterm.symm fun ht => ?_
    refine (inner_follows fun i hi => exists_op h hb (List.dropLast_subset _ hi)).bind
      fun _ _ _ => ?_
    have hexit := Func.exitOp?_of_getLast? hlast ho (hterm ▸ ht)
    have hsuccs : f.successors b = o.targets := by rw [Func.successors, hexit]; rfl
    rw [hsuccs]
    cases o.targets.find? fun t => !f.contains t with
    | none => exact .done trivial
    | some t => exact .said _

end Slots

end LoopFusion.Guarded
