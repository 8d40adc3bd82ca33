import LoopFusion.Proofs.Ir.Building

/-!
Programs of builder calls: what they write, which loops they ask for, and when every operand is at
hand where it is used.
-/

namespace LoopFusion

/-- Neither a phi nor a terminator. -/
def Operation.Plain (op : Operation) : Prop := ¬ op.isPhi ∧ ¬ op.isTerminator

theorem Operation.Plain.of {op : Operation} (hphi : op.isPhi = false)
    (hterm : op.isTerminator = false) : op.Plain :=
  ⟨Bool.eq_false_iff.1 hphi, Bool.eq_false_iff.1 hterm⟩

theorem Operation.Plain.binary (op : BinaryOp) (l r : Value) : (Operation.binary op l r).Plain :=
  .of rfl rfl

theorem Operation.Plain.gep (base offset : Value) : (Operation.gep base offset).Plain :=
  .of rfl rfl

theorem Operation.Plain.load (addr : Value) : (Operation.load addr).Plain :=
  .of rfl rfl

theorem Operation.Plain.store (addr value : Value) : (Operation.store addr value).Plain :=
  .of rfl rfl

/-- A program of builder calls: parameters, straight-line instructions and counted loops, nested
and one after the other. It goes on from what each call answers, and what it ends with is what the
function returns. -/
inductive Program
  | done (answer : Option Value)
  | param (name : String) (type : ParamType) (rest : Value → Program)
  | named (v : Value) (name : String) (rest : Program)
  | inst (op : Operation) (plain : op.Plain) (rest : Value → Program)
  | loop (name : String) (start bound : Value) (step : Int64) (moves : step ≠ 0)
      (body : Value → Program) (rest : CountedLoop → Program)

/-- A call that wrote a counted loop, and the loop whose body made it. -/
structure Call where
  made : CountedLoop
  start : Value
  bound : Value
  step : Int64
  around? : Option CountedLoop

/-- A constant or one of the values at hand. -/
def InScope (scope : List Value) (v : Value) : Prop := (∃ c, v = .const c) ∨ v ∈ scope

namespace Program

open Build

def write : Program → Build (Option Value)
  | done answer => return answer
  | param name type rest => do (rest (← Build.param name type)).write
  | named v name rest => do
    setName v name
    rest.write
  | inst op _ rest => do (rest (← value op)).write
  | loop name start bound step _ body rest => do
    let c ← countedLoop name start bound step fun iv => discard (body iv).write
    (rest c).write

/-- The function that the program writes, closed by a return. -/
def func (name : String) (p : Program) : Func :=
  .build name do emit (.ret (← p.write))

/-- The calls that write loops, in order, and the loops they return. -/
def calls : Program → Option CountedLoop → Builder → List Call
  | done _, _, _ => []
  | param name type rest, a, s =>
    let added := (Build.param name type).run s
    (rest added.1).calls a added.2
  | named v name rest, a, s => rest.calls a ((setName v name).run s).2
  | inst op _ rest, a, s =>
    let added := (value op).run s
    (rest added.1).calls a added.2
  | loop name start bound step _ body rest, a, s =>
    let opened := (openLoop name start bound step).run s
    let made := (countedLoop name start bound step fun iv => discard (body iv).write).run s
    ⟨made.1, start, bound, step, a⟩ ::
      (body (.inst opened.1.iv)).calls (some made.1) opened.2 ++ (rest made.1).calls a made.2

/-- Every operand is at hand where it is used. The induction variable and the test of a loop stay
at hand after it, what its body computes does not. -/
def Scoped : Program → List Value → Builder → Prop
  | done answer, scope, _ => ∀ v ∈ answer, InScope scope v
  | param name type rest, scope, s =>
    let added := (Build.param name type).run s
    (rest added.1).Scoped (added.1 :: scope) added.2
  | named v name rest, scope, s => rest.Scoped scope ((setName v name).run s).2
  | inst op _ rest, scope, s =>
    let added := (value op).run s
    (∀ u ∈ op.operands, InScope scope u) ∧
      (rest added.1).Scoped (if op.hasResult then added.1 :: scope else scope) added.2
  | loop name start bound step _ body rest, scope, s =>
    let opened := (openLoop name start bound step).run s
    let made := (countedLoop name start bound step fun iv => discard (body iv).write).run s
    InScope scope start ∧ InScope (.inst opened.1.iv :: scope) bound ∧
      (body (.inst opened.1.iv)).Scoped (opened.1.cond :: .inst opened.1.iv :: scope) opened.2 ∧
        (rest made.1).Scoped (opened.1.cond :: .inst opened.1.iv :: scope) made.2

section Scoped

variable {scope : List Value} {s : Builder} {name : String}

theorem scoped_param {type : ParamType} {rest : Value → Program}
    (h : ∀ k s, (rest (.param k)).Scoped (.param k :: scope) s) :
    (param name type rest).Scoped scope s := h _ _

theorem scoped_inst {op : Operation} {plain : op.Plain} {rest : Value → Program}
    (hops : ∀ v ∈ op.operands, InScope scope v)
    (h : ∀ i s, (rest (.inst i)).Scoped (if op.hasResult then .inst i :: scope else scope) s) :
    (inst op plain rest).Scoped scope s := ⟨hops, h _ _⟩

theorem scoped_value {op : Operation} {plain : op.Plain} {rest : Value → Program}
    (hops : ∀ v ∈ op.operands, InScope scope v) (hresult : op.hasResult)
    (h : ∀ i s, (rest (.inst i)).Scoped (.inst i :: scope) s) :
    (inst op plain rest).Scoped scope s := by
  refine scoped_inst hops fun i s => ?_
  rw [if_pos hresult]
  exact h i s

theorem scoped_loop {start bound : Value} {step : Int64} {moves : step ≠ 0}
    {body : Value → Program} {rest : CountedLoop → Program} (hstart : InScope scope start)
    (hbound : InScope scope bound)
    (hbody : ∀ i c s, (body (.inst i)).Scoped (c :: .inst i :: scope) s)
    (hrest : ∀ m c s, (rest m).Scoped (c :: m.iv :: scope) s) :
    (loop name start bound step moves body rest).Scoped scope s :=
  ⟨hstart, hbound.imp_right (List.mem_cons_of_mem _), hbody _ _ _, hrest _ _ _⟩

end Scoped

end Program

/-- A step that names something or adds a parameter. -/
structure Build.Idle (s s' : Builder) : Prop where
  current : s'.current = s.current
  size : s'.func.blocks.size = s.func.blocks.size
  count : s'.func.insts.size = s.func.insts.size
  params : s.func.params.length ≤ s'.func.params.length
  body : ∀ b, s'.func.body b = s.func.body b
  op? : ∀ i, s'.func.op? i = s.func.op? i
  orderly : s.func.Orderly → s'.func.Orderly

/-- A step that adds one instruction. -/
structure Build.Adds (s : Builder) (op : Operation) (s' : Builder) : Prop where
  current : s'.current = s.current
  size : s'.func.blocks.size = s.func.blocks.size
  count : s'.func.insts.size = s.func.insts.size + 1
  params : s'.func.params = s.func.params
  body : ∀ b, s'.func.body b =
    if b = s.current then s.func.body b ++ [⟨s.func.insts.size⟩] else s.func.body b
  op? : ∀ i, s'.func.op? i = if i = ⟨s.func.insts.size⟩ then some op else s.func.op? i
  orderly : s.func.Orderly → s'.func.Orderly

/-- The steps from `s` to `t` that make the calls and end with the answer, all in the body of the
loop `a`. If `ok`, then every operand is at hand where it is used. -/
inductive Writes (ok : Prop) : Option CountedLoop → List Value → Builder → List Call →
    Option Value → Builder → Prop
  | done {a scope s answer} (hv : ok → ∀ v ∈ answer, InScope scope v) :
    Writes ok a scope s [] answer s
  | idle {a scope scope' s s' cs answer t} (hi : Build.Idle s s')
    (hscope : ∀ v ∈ scope', v ∈ scope ∨ ∃ k, v = .param k ∧ k < s'.func.params.length)
    (rest : Writes ok a scope' s' cs answer t) : Writes ok a scope s cs answer t
  | inst {a scope s s' op cs answer t} (plain : op.Plain)
    (hops : ok → ∀ v ∈ op.operands, InScope scope v) (ha : Build.Adds s op s')
    (rest : Writes ok a
      (if op.hasResult then .inst ⟨s.func.insts.size⟩ :: scope else scope) s' cs answer t) :
    Writes ok a scope s cs answer t
  | loop {a scope s s₁ s₂ s₃ t start bound step l c inner after answer' answer}
    (moves : step ≠ 0) (hstart : ok → InScope scope start)
    (hbound : ok → InScope (.inst l.iv :: scope) bound) (ho : Build.Opens s start bound step l s₁)
    (body : Writes ok (some c) (l.cond :: .inst l.iv :: scope) s₁ inner answer' s₂)
    (hc : Build.Closes s₂ l c s₃)
    (rest : Writes ok a (l.cond :: .inst l.iv :: scope) s₃ after answer t) :
    Writes ok a scope s (⟨c, start, bound, step, a⟩ :: inner ++ after) answer t

/-- The builder is positioned in a block. -/
def Builder.Ready (s : Builder) : Prop := s.current.index < s.func.blocks.size

/-- What goes on from `s` to `t` happens in the current block and in new ones. -/
structure Builder.Onward (s t : Builder) : Prop where
  size : s.func.blocks.size ≤ t.func.blocks.size
  count : s.func.insts.size ≤ t.func.insts.size
  params : s.func.params.length ≤ t.func.params.length
  current : t.current = s.current ∨ s.func.blocks.size ≤ t.current.index
  ready : t.Ready
  body : ∀ b, b.index < s.func.blocks.size → b ≠ s.current → t.func.body b = s.func.body b
  grows : ∀ b, s.func.body b ⊆ t.func.body b
  op? : ∀ i, i.index < s.func.insts.size → t.func.op? i = s.func.op? i
  orderly : s.func.Orderly → t.func.Orderly

namespace Builder.Onward

variable {s t u : Builder}

theorem refl (hs : s.Ready) : s.Onward s :=
  ⟨Nat.le_refl _, Nat.le_refl _, Nat.le_refl _, .inl rfl, hs, fun _ _ _ => rfl,
    fun _ => List.Subset.refl _, fun _ _ => rfl, id⟩

theorem trans (h : s.Onward t) (h' : t.Onward u) : s.Onward u where
  size := h.size.trans h'.size
  count := h.count.trans h'.count
  params := h.params.trans h'.params
  current := by
    rcases h'.current with he | hle
    · rw [he]
      exact h.current
    · exact .inr (h.size.trans hle)
  ready := h'.ready
  body b hb hne := by
    rw [h'.body b (hb.trans_le h.size), h.body b hb hne]
    rcases h.current with he | hle
    · exact he ▸ hne
    · rintro rfl
      omega
  grows b := List.Subset.trans (h.grows b) (h'.grows b)
  op? i hi := by rw [h'.op? i (hi.trans_le h.count), h.op? i hi]
  orderly ho := h'.orderly (h.orderly ho)

theorem current_le (h : s.Onward t) (hs : s.Ready) : s.current.index ≤ t.current.index := by
  rcases h.current with he | hle
  · rw [he]
  · exact (Nat.le_of_lt hs).trans hle

end Builder.Onward

namespace Build

variable {s s' s₁ s₂ s₃ : Builder} {l : OpenLoop} {c : CountedLoop} {start bound : Value}
  {step : Int64} {op : Operation}

theorem Idle.onward (h : Idle s s') (hs : s.Ready) : s.Onward s' where
  size := h.size.ge
  count := h.count.ge
  params := h.params
  current := .inl h.current
  ready := by
    rw [Builder.Ready, h.current, h.size]
    exact hs
  body b _ _ := h.body b
  grows b := by rw [h.body]; exact List.Subset.refl _
  op? i _ := h.op? i
  orderly := h.orderly

theorem Adds.onward (h : Adds s op s') (hs : s.Ready) : s.Onward s' where
  size := h.size.ge
  count := by rw [h.count]; omega
  params := by rw [h.params]
  current := .inl h.current
  ready := by
    rw [Builder.Ready, h.current, h.size]
    exact hs
  body b _ hne := by rw [h.body, if_neg hne]
  grows b := by
    rw [h.body]
    split
    · exact List.subset_append_left ..
    · exact List.Subset.refl _
  op? i hi := by
    rw [h.op?, if_neg]
    rintro rfl
    exact Nat.lt_irrefl _ hi
  orderly := h.orderly

theorem Opens.ready (h : Opens s start bound step l s₁) : s₁.Ready := by
  rw [Builder.Ready, h.current, h.size]
  exact Nat.lt_succ_self _

theorem Opens.grows (h : Opens s start bound step l s₁) (b : BlockId) :
    s.func.body b ⊆ s₁.func.body b := by
  rw [h.body]
  split
  · exact List.subset_append_left ..
  · split
    · exact List.subset_append_left ..
    · exact List.Subset.refl _

theorem Closes.grows (h : Closes s l c s') (b : BlockId) : s.func.body b ⊆ s'.func.body b := by
  rw [h.body]
  split
  · exact List.subset_append_left ..
  · split
    · exact List.subset_append_left ..
    · split
      · exact List.subset_append_left ..
      · exact List.Subset.refl _

theorem Opens.iv_lt (ho : Opens s start bound step l s₁) (hb : s₁.Onward s₂) :
    l.iv.index < s₂.func.insts.size := by
  have hcount₁ := ho.count
  have hcount₂ := hb.count
  rw [ho.iv]
  change s.func.insts.size + 1 < _
  omega

theorem Opens.header_lt (ho : Opens s start bound step l s₁) (hb : s₁.Onward s₂) :
    l.header.index < s₂.func.blocks.size := by
  have hsize₁ := ho.size
  have hsize₂ := hb.size
  rw [ho.header]
  change s.func.blocks.size < _
  omega

theorem Opens.header_ne_current (ho : Opens s start bound step l s₁) (hb : s₁.Onward s₂) :
    l.header ≠ s₂.current := by
  rcases hb.current with he | hle
  · rw [he, ho.current, ho.header]
    exact BlockId.ne_mk (Nat.lt_succ_self _)
  · intro he
    have := ho.header_lt (.refl ho.ready)
    rw [he] at this
    omega

theorem Closes.ready (h : Closes s l c s') : s'.Ready := by
  rw [Builder.Ready, h.current, h.size]
  exact Nat.lt_succ_self _

theorem loop_onward (ho : Opens s start bound step l s₁) (hb : s₁.Onward s₂)
    (hc : Closes s₂ l c s₃) : s.Onward s₃ where
  size := by
    have := hb.size
    have := ho.size
    have := hc.size
    omega
  count := by
    have := hb.count
    have := ho.count
    have := hc.count
    omega
  params := by
    have := hb.params
    rw [ho.params] at this
    rwa [hc.params]
  current := by
    have := hb.size
    have := ho.size
    right
    rw [hc.current]
    change _ ≤ s₂.func.blocks.size + 1
    omega
  ready := hc.ready
  body b hlt hne := by
    have hsize₁ := ho.size
    have hsize₂ := hb.size
    have hb₁ : b ≠ s₁.current := by
      rw [ho.current]
      exact BlockId.ne_mk (Nat.lt_succ_of_lt hlt)
    have hb₂ : b ≠ s₂.current := by
      rcases hb.current with he | hle
      · rwa [he]
      · rintro rfl
        omega
    have hh : b ≠ l.header := ho.header ▸ BlockId.ne_mk hlt
    rw [hc.body_of_ne (by omega) hh hb₂, hb.body b (by omega) hb₁, ho.body_of_ne hlt hne]
  grows b := List.Subset.trans (List.Subset.trans (ho.grows b) (hb.grows b)) (hc.grows b)
  op? i hi := by
    have hcount₁ := ho.count
    have hcount₂ := hb.count
    have hne : i ≠ l.iv := ho.iv ▸ InstId.ne_add hi 1
    rw [hc.op?_of_lt (by omega) hne, hb.op? i (by omega), ho.op?_of_lt hi]
  orderly h := hc.orderly (hb.orderly (ho.orderly h))

end Build

theorem Writes.onward {ok : Prop} {a : Option CountedLoop} {scope : List Value} {s t : Builder}
    {cs : List Call} {answer : Option Value} (h : Writes ok a scope s cs answer t)
    (hs : s.Ready) : s.Onward t := by
  induction h with
  | done => exact .refl hs
  | idle hi _ _ ih =>
    have := hi.onward hs
    exact this.trans (ih this.ready)
  | inst _ _ ha _ ih =>
    have := ha.onward hs
    exact this.trans (ih this.ready)
  | loop _ _ _ ho _ hc _ ihb ihr =>
    exact (Build.loop_onward ho (ihb ho.ready) hc).trans (ihr hc.ready)

namespace Program

open Build

theorem closes_of_onward {s s₁ s₂ : Builder} {start bound : Value} {step : Int64} {l : OpenLoop}
    (ho : Opens s start bound step l s₁) (hb : s₁.Onward s₂) :
    Closes s₂ l ((closeLoop l).run s₂).1 ((closeLoop l).run s₂).2 :=
  closes hb.ready (ho.header_lt hb) (ho.header_ne_current hb) (ho.iv_lt hb)

theorem adds {s : Builder} (op : Operation) (hs : s.Ready) : Adds s op ((emit op).run s).2 where
  current := rfl
  size := Func.size_appendInst
  count := Func.count_appendInst
  params := Func.params_appendInst
  body _ := Func.body_appendInst hs
  op? _ := Func.op?_appendInst
  orderly h := h.appendInst hs

theorem idle_param (s : Builder) (name : String) (type : ParamType) :
    Idle s ((Build.param name type).run s).2 where
  current := rfl
  size := rfl
  count := rfl
  params := by
    change _ ≤ (s.func.params ++ [Param.mk name type]).length
    rw [List.length_append]
    exact Nat.le_add_right _ _
  body _ := rfl
  op? _ := rfl
  orderly h := ⟨h.layout, h.live, h.owned, h.sorted⟩

theorem idle_setName (s : Builder) (v : Value) (name : String) :
    Idle s ((setName v name).run s).2 := by
  cases v with
  | inst i => exact ⟨rfl, rfl, Func.count_setName _, Nat.le_refl _, fun _ => rfl,
      fun _ => Func.op?_setName _, fun h => h.setName _⟩
  | _ => exact ⟨rfl, rfl, rfl, Nat.le_refl _, fun _ => rfl, fun _ => rfl, id⟩

theorem writes {ok : Prop} (p : Program) (a : Option CountedLoop) (scope : List Value)
    (s : Builder) (hs : s.Ready) (hok : ok → p.Scoped scope s) :
    Writes ok a scope s (p.calls a s) (p.write.run s).1 (p.write.run s).2 := by
  induction p generalizing a scope s with
  | done answer => exact .done hok
  | param name type rest ih =>
    have hi := idle_param s name type
    refine .idle hi (fun v hv => ?_) (ih _ _ _ _ (hi.onward hs).ready hok)
    rcases List.mem_cons.1 hv with rfl | hv
    · refine .inr ⟨_, rfl, ?_⟩
      change _ < (s.func.params ++ [Param.mk name type]).length
      rw [List.length_append]
      exact Nat.lt_succ_self _
    · exact .inl hv
  | named v name rest ih =>
    have hi := idle_setName s v name
    exact .idle hi (fun v hv => .inl hv) (ih _ _ _ (hi.onward hs).ready hok)
  | inst op plain rest ih =>
    have ha := adds op hs
    exact .inst plain (fun h => (hok h).1) ha (ih _ _ _ _ (ha.onward hs).ready fun h => (hok h).2)
  | loop name start bound step moves body rest ihb ihr =>
    let made := (countedLoop name start bound step fun iv => discard (body iv).write).run s
    have ho := opens s name start bound step hs
    have hb := ihb _ (some made.1) _ _ ho.ready fun h => (hok h).2.2.1
    have hc := closes_of_onward ho (hb.onward ho.ready)
    exact .loop moves (fun h => (hok h).1) (fun h => (hok h).2.1) ho hb hc
      (ihr _ _ _ _ hc.ready fun h => (hok h).2.2.2)

end Program

end LoopFusion
