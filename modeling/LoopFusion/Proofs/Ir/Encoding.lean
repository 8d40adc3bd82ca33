import LoopFusion.Ir.Encoding
import LoopFusion.Proofs.Json.Carried

/-!
Modules survive the way through their documents, as long as their handles are numbers of 32 bits.
-/

namespace LoopFusion

/-! ### Handles -/

def BlockId.Addressable (b : BlockId) : Prop := b.index < UInt32.size

def InstId.Addressable (i : InstId) : Prop := i.index < UInt32.size

def Value.Addressable : Value → Prop
  | .const _ => True
  | .param k => k < UInt32.size
  | .inst i => i.Addressable

def Operation.Addressable : Operation → Prop
  | .phi incoming => ∀ e ∈ incoming, e.1.Addressable ∧ e.2.Addressable
  | .binary _ l r | .compare _ l r => l.Addressable ∧ r.Addressable
  | .gep b o => b.Addressable ∧ o.Addressable
  | .load a => a.Addressable
  | .store a v => a.Addressable ∧ v.Addressable
  | .br t => t.Addressable
  | .condBr c t e => c.Addressable ∧ t.Addressable ∧ e.Addressable
  | .ret v => ∀ w ∈ v, w.Addressable

def Inst.Addressable (i : Inst) : Prop := i.op.Addressable ∧ i.block.Addressable

def Block.Addressable (b : Block) : Prop := ∀ i ∈ b.insts, i.Addressable

structure Func.Addressable (f : Func) : Prop where
  blocks : ∀ b ∈ f.blocks.toList, b.Addressable
  insts : ∀ i ∈ f.insts.toList, i.Addressable
  layout : ∀ b ∈ f.layout, b.Addressable

/-- Every handle in the module is a number of 32 bits. -/
def Module.Addressable (m : Module) : Prop := ∀ f ∈ m.functions, f.Addressable

namespace Encode

open Json (Carries Plain fields? str)

/-! ### Values and operations -/

theorem carries_blockId {b : BlockId} (h : b.Addressable) : Carries Decode.blockId (blockId b) b :=
  (Json.carries_handle h).map BlockId.mk

theorem carries_instId {i : InstId} (h : i.Addressable) : Carries Decode.instId (instId i) i :=
  (Json.carries_handle h).map InstId.mk

theorem carries_paramType (t : ParamType) : Carries Decode.paramType (paramType t) t := by
  cases t <;> exact ⟨.str _, rfl⟩

theorem carries_binaryOp (op : BinaryOp) : Carries Decode.binaryOp (binaryOp op) op := by
  cases op <;> exact ⟨.str _, rfl⟩

theorem carries_comparison (p : Comparison) : Carries Decode.comparison (comparison p) p := by
  cases p <;> exact ⟨.str _, rfl⟩

theorem carries_value {v : Value} (h : v.Addressable) : Carries Decode.value (value v) v := by
  cases v with
  | const c => exact (Json.carries_int64 c).variant fun _ => rfl
  | param k => exact (Json.carries_handle h).variant fun _ => rfl
  | inst i => exact (carries_instId h).variant fun _ => rfl

theorem value_ne_null (v : Value) : value v ≠ .null := by
  cases v <;> exact Json.noConfusion

theorem carries_incoming {e : BlockId × Value} (h : e.1.Addressable ∧ e.2.Addressable) :
    Carries Decode.incoming (incoming e) e := by
  have hb := carries_blockId h.1
  have hv := carries_value h.2
  refine ⟨.arr (by simp [hb.plain, hv.plain]), ?_⟩
  simp [incoming, Decode.incoming, hb.decodes, hv.decodes]

/-! ### Operations -/

theorem nodup_operationFields (name : String) : (Decode.operationFields name).Nodup := by
  unfold Decode.operationFields
  split <;> decide

theorem carries_fields {name : String} {ms : List (String × Json)} {op : Operation}
    (hnames : ms.map (·.1) = Decode.operationFields name) (hplain : ∀ m ∈ ms, m.2.Plain)
    (hop : Decode.operationOf name (ms.map fun m => .given m.2) = some op) :
    Carries Decode.operation (.obj [(name, .obj ms)]) op := by
  have hfields := Json.fields?_obj hnames (nodup_operationFields name)
  have hcontent : Carries
      (fun j => (fields? (Decode.operationFields name) j).bind (Decode.operationOf name)) (.obj ms)
      op :=
    ⟨.obj hplain, by rw [hfields, Option.bind_some, hop]⟩
  exact hcontent.variant (f := id) fun _ => Option.map_id'.symm

-- Unfolding by definition would have the kernel compute with the bound on handles.
theorem carries_operation {op : Operation} (h : op.Addressable) :
    Carries Decode.operation (operation op) op := by
  cases op with
  | phi inc =>
    have hinc := Json.carries_list fun e he => carries_incoming (h e he)
    exact carries_fields rfl (by simp [hinc.plain]) (by
      simp -implicitDefEqProofs [Decode.operationOf, hinc.required])
  | binary o l r =>
    have ho := carries_binaryOp o
    have hl := carries_value h.1
    have hr := carries_value h.2
    exact carries_fields rfl (by simp [ho.plain, hl.plain, hr.plain]) (by
      simp -implicitDefEqProofs [Decode.operationOf, ho.required, hl.required, hr.required])
  | compare p l r =>
    have hp := carries_comparison p
    have hl := carries_value h.1
    have hr := carries_value h.2
    exact carries_fields rfl (by simp [hp.plain, hl.plain, hr.plain]) (by
      simp -implicitDefEqProofs [Decode.operationOf, hp.required, hl.required, hr.required])
  | gep b o =>
    have hb := carries_value h.1
    have ho := carries_value h.2
    exact carries_fields rfl (by simp [hb.plain, ho.plain]) (by
      simp -implicitDefEqProofs [Decode.operationOf, hb.required, ho.required])
  | load a =>
    have ha := carries_value h
    exact carries_fields rfl (by simp [ha.plain]) (by
      simp -implicitDefEqProofs [Decode.operationOf, ha.required])
  | store a v =>
    have ha := carries_value h.1
    have hv := carries_value h.2
    exact carries_fields rfl (by simp [ha.plain, hv.plain]) (by
      simp -implicitDefEqProofs [Decode.operationOf, ha.required, hv.required])
  | br t =>
    have ht := carries_blockId h
    exact carries_fields rfl (by simp [ht.plain]) (by
      simp -implicitDefEqProofs [Decode.operationOf, ht.required])
  | condBr c t e =>
    have hc := carries_value h.1
    have ht := carries_blockId h.2.1
    have he := carries_blockId h.2.2
    exact carries_fields rfl (by simp [hc.plain, ht.plain, he.plain]) (by
      simp -implicitDefEqProofs [Decode.operationOf, hc.required, ht.required, he.required])
  | ret v =>
    have hv := Json.carries_nullable (fun w hw => carries_value (h w hw)) value_ne_null
    exact carries_fields rfl (by simp [hv.plain]) (by
      simp -implicitDefEqProofs [Decode.operationOf, hv.optional])

/-! ### Functions and modules -/

theorem carries_param (p : Param) : Carries Decode.param (param p) p := by
  have hname := Json.carries_str p.name
  have htype := carries_paramType p.type
  have hfields : fields? ["name", "ty"] (param p) =
      some [.given (str p.name), .given (paramType p.type)] := Json.fields?_obj rfl (by decide)
  refine ⟨.obj (by simp [hname.plain, htype.plain]), ?_⟩
  simp -implicitDefEqProofs [Decode.param, hfields, hname.required, htype.required]

theorem carries_inst {i : Inst} (h : i.Addressable) : Carries Decode.inst (inst i) i := by
  have hop := carries_operation h.1
  have hblock := carries_blockId h.2
  have hname : Carries (Json.nullable? Json.str?) (.ofOption str i.name) i.name :=
    Json.carries_nullable (fun s _ => Json.carries_str s) fun _ => Json.noConfusion
  have hfields : fields? ["kind", "block", "name"] (inst i) =
      some [.given (operation i.op), .given (blockId i.block), .given (.ofOption str i.name)] :=
    Json.fields?_obj rfl (by decide)
  refine ⟨.obj (by simp [hop.plain, hblock.plain, hname.plain]), ?_⟩
  simp -implicitDefEqProofs [Decode.inst, hfields, hop.required, hblock.required,
    hname.withDefault]

theorem carries_block {b : Block} (h : b.Addressable) : Carries Decode.block (block b) b := by
  have hname := Json.carries_str b.name
  have hinsts := Json.carries_list fun i hi => carries_instId (h i hi)
  have hdetached := Json.carries_bool b.detached
  have hfields : fields? ["name", "insts", "detached"] (block b) =
      some [.given (str b.name), .given (.ofList instId b.insts), .given (.bool b.detached)] :=
    Json.fields?_obj rfl (by decide)
  refine ⟨.obj (by simp [hname.plain, hinsts.plain, hdetached.plain]), ?_⟩
  simp -implicitDefEqProofs [Decode.block, hfields, hname.required, hinsts.required,
    hdetached.withDefault]

theorem carries_func {f : Func} (h : f.Addressable) : Carries Decode.func (func f) f := by
  have hname := Json.carries_str f.name
  have hparams : Carries (Json.list? Decode.param) (.ofList param f.params) f.params :=
    Json.carries_list fun p _ => carries_param p
  have hblocks := Json.carries_list fun b hb => carries_block (h.blocks b hb)
  have hinsts := Json.carries_list fun i hi => carries_inst (h.insts i hi)
  have hlayout := Json.carries_list fun b hb => carries_blockId (h.layout b hb)
  have hfields : fields? ["name", "params", "blocks", "insts", "layout"] (func f) =
      some [.given (str f.name), .given (.ofList param f.params),
        .given (.ofList block f.blocks.toList), .given (.ofList inst f.insts.toList),
        .given (.ofList blockId f.layout)] :=
    Json.fields?_obj rfl (by decide)
  refine ⟨.obj (by simp [hname.plain, hparams.plain, hblocks.plain, hinsts.plain, hlayout.plain]),
    ?_⟩
  simp -implicitDefEqProofs [Decode.func, hfields, hname.required, hparams.required,
    hblocks.required, hinsts.required, hlayout.required]

theorem carries_wholeModule {m : Module} (h : m.Addressable) :
    Carries Decode.wholeModule (wholeModule m) m := by
  have hname := Json.carries_str m.name
  have hfunctions := Json.carries_list fun f hf => carries_func (h f hf)
  have hfields : fields? ["name", "functions"] (wholeModule m) =
      some [.given (str m.name), .given (.ofList func m.functions)] :=
    Json.fields?_obj rfl (by decide)
  refine ⟨.obj (by simp [hname.plain, hfunctions.plain]), ?_⟩
  simp -implicitDefEqProofs [Decode.wholeModule, hfields, hname.required, hfunctions.required]

end Encode

theorem Module.parse_document {m : Module} (h : m.Addressable) {t : String}
    (ht : Json.Blank t.toList) : Module.parse (m.document ++ t) = some m := by
  have hcarries := Encode.carries_wholeModule h
  rw [Module.parse, Module.document, hcarries.plain.parse_pretty ht, Option.bind_some,
    hcarries.decodes]

theorem Module.parse_compactDocument {m : Module} (h : m.Addressable) {t : String}
    (ht : Json.Blank t.toList) : Module.parse (m.compactDocument ++ t) = some m := by
  have hcarries := Encode.carries_wholeModule h
  rw [Module.parse, Module.compactDocument, hcarries.plain.parse_compact ht, Option.bind_some,
    hcarries.decodes]

end LoopFusion
