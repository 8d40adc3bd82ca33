import LoopFusion.Ir.Builder
import LoopFusion.Proofs.Ir.Edit
import LoopFusion.Proofs.Flow.Graph

/-!
What the steps of a builder do to the function that is being written: a loop is opened, its body is
written, and it is closed.
-/

namespace LoopFusion

theorem BlockId.eq_mk {b : BlockId} {n : Nat} : b = ⟨n⟩ ↔ b.index = n := by
  cases b
  simp

theorem BlockId.ne_mk {b : BlockId} {n : Nat} (h : b.index < n) : b ≠ ⟨n⟩ :=
  fun he => h.ne (eq_mk.1 he)

theorem InstId.eq_mk {i : InstId} {n : Nat} : i = ⟨n⟩ ↔ i.index = n := by
  cases i
  simp

theorem InstId.ne_mk {i : InstId} {n : Nat} (h : i.index < n) : i ≠ ⟨n⟩ :=
  fun he => h.ne (eq_mk.1 he)

theorem InstId.ne_add {i : InstId} {n : Nat} (h : i.index < n) (k : Nat) : i ≠ ⟨n + k⟩ :=
  ne_mk (Nat.lt_add_right k h)

namespace Func

/-- Blocks and instructions stand in the order in which they were added, each instruction in the
block that owns it. -/
structure Orderly (f : Func) : Prop where
  layout : f.layout = f.arena
  live : ∀ b, b.index < f.blocks.size → f.contains b
  owned : ∀ b i, i ∈ f.body b ↔ f.owner? i = some b
  sorted : ∀ b, (f.body b).Pairwise fun i j => i.index < j.index

variable {f : Func} {b c : BlockId} {i j : InstId} {op : Operation} {n : String}

theorem owner?_eq_none (h : f.insts.size ≤ i.index) : f.owner? i = none := by
  rw [owner?, inst?, Array.getElem?_eq_none h, Option.map_none]

theorem body_eq_nil (h : f.blocks.size ≤ b.index) : f.body b = [] := by
  rw [body, block?, Array.getElem?_eq_none h]
  rfl

theorem block?_addBlock (hc : c.index < f.blocks.size) :
    (f.addBlock n).2.block? c = f.block? c := by
  change (f.blocks.push _)[c.index]? = _
  rw [Array.getElem?_push, if_neg hc.ne]
  rfl

theorem body_addBlock : (f.addBlock n).2.body c = f.body c := by
  simp only [body, block?, addBlock, Array.getElem?_push]
  split
  case isTrue h => rw [h, Array.getElem?_eq_none (Nat.le_refl _)]; rfl
  case isFalse => rfl

theorem contains_addBlock :
    (f.addBlock n).2.contains c ↔ f.contains c ∨ c = ⟨f.blocks.size⟩ := by
  have hc : c = ⟨f.blocks.size⟩ ↔ c.index = f.blocks.size := by cases c; simp
  simp only [contains, block?, addBlock, Array.getElem?_push, hc]
  split <;> simp [*]

section AddInst

variable {m : Option String} {place : InstId → List InstId → List InstId}

theorem inst?_addInst : (f.addInst b op m place).2.inst? i =
    if i = ⟨f.insts.size⟩ then some ⟨op, b, m⟩ else f.inst? i := by
  have : i = ⟨f.insts.size⟩ ↔ i.index = f.insts.size := by cases i; simp
  rw [if_congr this rfl rfl]
  exact Array.getElem?_push

theorem owner?_addInst : (f.addInst b op m place).2.owner? i =
    if i = ⟨f.insts.size⟩ then some b else f.owner? i := by
  rw [owner?, inst?_addInst]
  split <;> rfl

theorem block?_addInst : (f.addInst b op m place).2.block? c =
    if c = b then (f.block? c).map fun blk =>
      { blk with insts := place ⟨f.insts.size⟩ blk.insts }
    else f.block? c :=
  block?_modifyBlock _ b c _

theorem body_addInst (hb : b.index < f.blocks.size) : (f.addInst b op m place).2.body c =
    if c = b then place ⟨f.insts.size⟩ (f.body c) else f.body c := by
  rw [body, block?_addInst]
  split
  case isTrue h =>
    subst h
    have : f.block? c = some f.blocks[c.index] := Array.getElem?_eq_getElem hb
    rw [body, this]
    rfl
  case isFalse => rfl

theorem contains_addInst : (f.addInst b op m place).2.contains c = f.contains c := by
  rw [contains, block?_addInst]
  split
  · rw [Option.any_map]
    rfl
  · rfl

/-- The list of `b` with one more instruction somewhere in it. -/
def Places (f : Func) (b : BlockId) (place : InstId → List InstId → List InstId) : Prop :=
  ∀ i, ∃ l r, f.body b = l ++ r ∧ place i (f.body b) = l ++ i :: r

theorem places_append (f : Func) (b : BlockId) : f.Places b fun i is => is ++ [i] :=
  fun _ => ⟨f.body b, [], (List.append_nil _).symm, rfl⟩

theorem lt_of_owner? (h : f.owner? i = some b) : i.index < f.insts.size := by
  by_contra hn
  rw [owner?_eq_none (Nat.not_lt.1 hn)] at h
  cases h

theorem owned_addInst (hb : b.index < f.blocks.size) (hp : f.Places b place)
    (h : ∀ c i, i ∈ f.body c ↔ f.owner? i = some c) (c : BlockId) (i : InstId) :
    i ∈ (f.addInst b op m place).2.body c ↔ (f.addInst b op m place).2.owner? i = some c := by
  have hnew : ⟨f.insts.size⟩ ∉ f.body c := fun hm =>
    Nat.lt_irrefl _ (lt_of_owner? ((h c ⟨f.insts.size⟩).1 hm))
  obtain ⟨l, r, hbody, hplace⟩ := hp ⟨f.insts.size⟩
  rw [body_addInst hb, owner?_addInst]
  by_cases hc : c = b
  · subst c
    have := h b i
    rw [hbody, List.mem_append] at this
    rw [if_pos rfl, hplace, List.mem_append, List.mem_cons]
    by_cases hi : i = ⟨f.insts.size⟩ <;> simp [hi, this]
  · rw [if_neg hc]
    by_cases hi : i = ⟨f.insts.size⟩
    · simp [hi, hnew, Ne.symm hc]
    · rw [if_neg hi, h]

end AddInst

theorem body_appendInst (hb : b.index < f.blocks.size) :
    (f.appendInst b op none).2.body c =
      if c = b then f.body c ++ [⟨f.insts.size⟩] else f.body c :=
  body_addInst hb

theorem body_setName (m : Option String) : (f.setName j m).body c = f.body c := rfl

theorem body_modifyOp (g : Operation → Operation) : (f.modifyOp j g).body c = f.body c := rfl

theorem inst?_appendInst : (f.appendInst b op none).2.inst? i =
    if i = ⟨f.insts.size⟩ then some ⟨op, b, none⟩ else f.inst? i :=
  inst?_addInst

theorem op?_appendInst : (f.appendInst b op none).2.op? i =
    if i = ⟨f.insts.size⟩ then some op else f.op? i := by
  rw [op?, inst?_appendInst]
  split <;> rfl

theorem size_appendInst : (f.appendInst b op none).2.blocks.size = f.blocks.size :=
  Array.size_modify ..

theorem count_appendInst : (f.appendInst b op none).2.insts.size = f.insts.size + 1 :=
  Array.size_push ..

theorem size_addBlock : (f.addBlock n).2.blocks.size = f.blocks.size + 1 := Array.size_push ..

theorem count_setName (m : Option String) : (f.setName j m).insts.size = f.insts.size :=
  Array.size_modify ..

theorem count_modifyOp (g : Operation → Operation) : (f.modifyOp j g).insts.size = f.insts.size :=
  Array.size_modify ..

theorem params_appendInst : (f.appendInst b op none).2.params = f.params := rfl

theorem inst?_modifyInst (g : Inst → Inst) : (f.modifyInst j g).inst? i =
    if i = j then (f.inst? i).map g else f.inst? i := by
  have : i = j ↔ j.index = i.index := by cases i; cases j; simp [eq_comm]
  rw [if_congr this rfl rfl]
  exact Array.getElem?_modify ..

theorem op?_setName (m : Option String) : (f.setName j m).op? i = f.op? i := by
  rw [op?, setName, inst?_modifyInst, op?]
  split
  · rw [Option.map_map]; rfl
  · rfl

theorem owner?_setName (m : Option String) : (f.setName j m).owner? i = f.owner? i := by
  rw [owner?, setName, inst?_modifyInst, owner?]
  split
  · rw [Option.map_map]; rfl
  · rfl

theorem owner?_modifyOp (g : Operation → Operation) : (f.modifyOp j g).owner? i = f.owner? i :=
  (reworked_modifyOp f j g).owner i

namespace Orderly

theorem addBlock (h : f.Orderly) : (f.addBlock n).2.Orderly where
  layout := by
    change f.layout ++ [⟨f.blocks.size⟩] = (List.range (f.blocks.push _).size).map BlockId.mk
    rw [h.layout, Array.size_push, List.range_succ, List.map_append]
    rfl
  live b hb := by
    rw [size_addBlock, Nat.lt_succ_iff_lt_or_eq] at hb
    rw [contains_addBlock]
    exact hb.imp (h.live b) (congrArg BlockId.mk)
  owned b i := by
    rw [body_addBlock]
    exact h.owned b i
  sorted b := by
    rw [body_addBlock]
    exact h.sorted b

theorem lt_of_mem (h : f.Orderly) (hi : i ∈ f.body b) : i.index < f.insts.size :=
  lt_of_owner? ((h.owned b i).1 hi)

theorem appendInst (h : f.Orderly) (hb : b.index < f.blocks.size) :
    (f.appendInst b op none).2.Orderly where
  layout := by
    change f.layout = (List.range _).map BlockId.mk
    rw [size_appendInst, h.layout]
    rfl
  live c hc := by
    rw [size_appendInst] at hc
    exact contains_addInst.trans (h.live c hc)
  owned := owned_addInst hb (f.places_append b) h.owned
  sorted c := by
    rw [body_appendInst hb]
    split
    · refine List.pairwise_append.2 ⟨h.sorted c, List.pairwise_singleton _ _, fun i hi j hj => ?_⟩
      obtain rfl := List.mem_singleton.1 hj
      exact h.lt_of_mem hi
    · exact h.sorted c

theorem setName (h : f.Orderly) (m : Option String) : (f.setName i m).Orderly where
  layout := h.layout
  live := h.live
  owned b j := by
    rw [owner?_setName]
    exact h.owned b j
  sorted := h.sorted

theorem modifyOp (h : f.Orderly) (g : Operation → Operation) : (f.modifyOp i g).Orderly where
  layout := h.layout
  live := h.live
  owned b j := by
    rw [owner?_modifyOp]
    exact h.owned b j
  sorted := h.sorted

end Orderly

/-- `g` is `f` with `m` more blocks and `n` more instructions, and in order if `f` is. -/
structure Grown (f g : Func) (m n : Nat) : Prop where
  size : g.blocks.size = f.blocks.size + m
  count : g.insts.size = f.insts.size + n
  params : g.params = f.params
  orderly : f.Orderly → g.Orderly

namespace Grown

variable {g : Func} {m k : Nat}

theorem refl (f : Func) : Grown f f 0 0 := ⟨rfl, rfl, rfl, id⟩

theorem addBlock (h : Grown f g m k) : Grown f (g.addBlock n).2 (m + 1) k where
  size := by rw [size_addBlock, h.size, Nat.add_assoc]
  count := h.count
  params := h.params
  orderly ho := (h.orderly ho).addBlock

theorem appendInst (h : Grown f g m k) (hb : b.index < g.blocks.size) :
    Grown f (g.appendInst b op none).2 m (k + 1) where
  size := size_appendInst.trans h.size
  count := by rw [count_appendInst, h.count, Nat.add_assoc]
  params := h.params
  orderly ho := (h.orderly ho).appendInst hb

theorem setName (h : Grown f g m k) (name : Option String) : Grown f (g.setName i name) m k where
  size := h.size
  count := (count_setName name).trans h.count
  params := h.params
  orderly ho := (h.orderly ho).setName name

theorem modifyOp (h : Grown f g m k) (edit : Operation → Operation) :
    Grown f (g.modifyOp i edit) m k where
  size := h.size
  count := (count_modifyOp edit).trans h.count
  params := h.params
  orderly ho := (h.orderly ho).modifyOp edit

end Grown

end Func

namespace Build

section Steps

variable (s : Builder)

theorem run_current : current.run s = (s.current, s) := rfl

theorem run_createBlock (name : String) : (createBlock name).run s =
    (⟨s.func.blocks.size⟩, { s with func := (s.func.addBlock name).2 }) := rfl

theorem run_switchTo (b : BlockId) : (switchTo b).run s = ((), { s with current := b }) := rfl

theorem run_emit (op : Operation) : (emit op).run s =
    (⟨s.func.insts.size⟩, { s with func := (s.func.appendInst s.current op none).2 }) := rfl

theorem run_value (op : Operation) : (value op).run s =
    (.inst ⟨s.func.insts.size⟩, { s with func := (s.func.appendInst s.current op none).2 }) := rfl

theorem run_setName (i : InstId) (name : String) : (setName (.inst i) name).run s =
    ((), { s with func := s.func.setName i (some name) }) := rfl

theorem run_addIncoming (i : InstId) (b : BlockId) (v : Value) :
    (addIncoming (.inst i) b v).run s =
      ((), { s with func := s.func.modifyOp i (.mapIncoming (· ++ [(b, v)])) }) := rfl

theorem run_bind {α β : Type} (x : Build α) (g : α → Build β) :
    (x >>= g).run s = (g (x.run s).1).run (x.run s).2 := rfl

theorem run_discard {α : Type} (x : Build α) : (discard x).run s = ((), (x.run s).2) := rfl

theorem run_pure {α : Type} (a : α) : (pure a : Build α).run s = (a, s) := rfl

end Steps

section Opening

variable (s : Builder) (name : String) (start bound : Value) (step : Int64)

/-- What opening a loop in `s` leaves behind. -/
structure Opens (s : Builder) (start bound : Value) (step : Int64) (l : OpenLoop) (s' : Builder) :
    Prop where
  by' : l.step = step
  preheader : l.preheader = s.current
  header : l.header = ⟨s.func.blocks.size⟩
  bodyHead : l.body = ⟨s.func.blocks.size + 1⟩
  iv : l.iv = ⟨s.func.insts.size + 1⟩
  cond : l.cond = .inst ⟨s.func.insts.size + 2⟩
  current : s'.current = ⟨s.func.blocks.size + 1⟩
  size : s'.func.blocks.size = s.func.blocks.size + 2
  count : s'.func.insts.size = s.func.insts.size + 3
  params : s'.func.params = s.func.params
  body : ∀ b, s'.func.body b =
    if b = ⟨s.func.blocks.size⟩ then
      s.func.body b ++ [⟨s.func.insts.size + 1⟩, ⟨s.func.insts.size + 2⟩]
    else if b = s.current then s.func.body b ++ [⟨s.func.insts.size⟩]
    else s.func.body b
  op? : ∀ i, s'.func.op? i =
    if i = ⟨s.func.insts.size + 2⟩ then
      some (.compare (continueTest step) (.inst ⟨s.func.insts.size + 1⟩) bound)
    else if i = ⟨s.func.insts.size + 1⟩ then some (.phi [(s.current, start)])
    else if i = ⟨s.func.insts.size⟩ then some (.br ⟨s.func.blocks.size⟩)
    else s.func.op? i
  orderly : s.func.Orderly → s'.func.Orderly

theorem opens (hs : s.current.index < s.func.blocks.size) :
    Opens s start bound step ((openLoop name start bound step).run s).1
      ((openLoop name start bound step).run s).2 := by
  obtain ⟨f, current⟩ := s
  let h : BlockId := ⟨f.blocks.size⟩
  let f₁ := (f.addBlock (name ++ ".header")).2
  let f₂ := (f₁.addBlock (name ++ ".body")).2
  let f₃ := (f₂.appendInst current (.br h) none).2
  let f₄ := (f₃.appendInst h (.phi [(current, start)]) none).2
  let f₅ := f₄.setName ⟨f₃.insts.size⟩ (some name)
  let f₆ := (f₅.appendInst h (.compare (continueTest step) (.inst ⟨f₃.insts.size⟩) bound) none).2
  have hrun : (openLoop name start bound step).run ⟨f, current⟩ = (⟨name, step, current, h,
    ⟨f₁.blocks.size⟩, ⟨f₃.insts.size⟩, .inst ⟨f₅.insts.size⟩⟩, ⟨f₆, ⟨f₁.blocks.size⟩⟩) := by
    simp only [openLoop, run_bind, run_pure, run_discard, run_current, run_createBlock, run_emit,
      run_switchTo, run_value, run_setName, f₆, f₅, f₄, f₃, f₂, f₁, h]
  have g₁ : f.Grown f₁ 1 0 := (Func.Grown.refl f).addBlock
  have g₂ : f.Grown f₂ 2 0 := g₁.addBlock
  have i₂ : current.index < f₂.blocks.size := (Nat.lt_add_right 2 hs).trans_eq g₂.size.symm
  have g₃ : f.Grown f₃ 2 1 := g₂.appendInst i₂
  have i₃ : h.index < f₃.blocks.size := by
    rw [g₃.size]
    exact Nat.lt_add_of_pos_right Nat.two_pos
  have g₅ : f.Grown f₅ 2 2 := (g₃.appendInst i₃).setName _
  have i₅ : h.index < f₅.blocks.size := i₃.trans_eq (g₃.size.trans g₅.size.symm)
  have g₆ : f.Grown f₆ 2 3 := g₅.appendInst i₅
  rw [hrun, g₁.size, g₃.count, g₅.count]
  exact {
    by' := rfl
    preheader := rfl
    header := rfl
    bodyHead := rfl
    iv := rfl
    cond := rfl
    current := rfl
    size := g₆.size
    count := g₆.count
    params := g₆.params
    body := by
      intro b
      have hne : current ≠ h := fun he => by simp [he, h] at hs
      rw [Func.body_appendInst i₅, Func.body_setName, Func.body_appendInst i₃,
        Func.body_appendInst i₂, Func.body_addBlock, Func.body_addBlock, g₅.count, g₃.count,
        g₂.count]
      by_cases hb : b = h
      · simp [hb, h, hne.symm]
      · simp only [if_neg hb, h, Nat.add_zero]
    op? := by
      intro i
      rw [Func.op?_appendInst, Func.op?_setName, Func.op?_appendInst, Func.op?_appendInst,
        g₅.count, g₃.count]
      rfl
    orderly := g₆.orderly }

namespace Opens

variable {s s' : Builder} {start bound : Value} {step : Int64} {l : OpenLoop} {b : BlockId}
  {i : InstId} (h : Opens s start bound step l s')

include h

theorem op?_of_lt (hi : i.index < s.func.insts.size) : s'.func.op? i = s.func.op? i := by
  rw [h.op?, if_neg (InstId.ne_add hi 2), if_neg (InstId.ne_add hi 1), if_neg (InstId.ne_mk hi)]

theorem op?_enter : s'.func.op? ⟨s.func.insts.size⟩ = some (.br l.header) := by
  rw [h.op?, if_neg (by simp), if_neg (by simp), if_pos rfl, h.header]

theorem op?_iv : s'.func.op? l.iv = some (.phi [(s.current, start)]) := by
  rw [h.iv, h.op?, if_neg (by simp), if_pos rfl]

theorem op?_test : s'.func.op? ⟨s.func.insts.size + 2⟩ =
    some (.compare (continueTest step) (.inst l.iv) bound) := by
  rw [h.op?, if_pos rfl, h.iv]

theorem body_header : s'.func.body l.header = [l.iv, ⟨s.func.insts.size + 2⟩] := by
  have hnil : s.func.body ⟨s.func.blocks.size⟩ = [] := Func.body_eq_nil (Nat.le_refl _)
  rw [h.header, h.body, if_pos rfl, hnil, List.nil_append, h.iv]

theorem body_preheader (hs : s.current.index < s.func.blocks.size) :
    s'.func.body s.current = s.func.body s.current ++ [⟨s.func.insts.size⟩] := by
  rw [h.body, if_neg (BlockId.ne_mk hs), if_pos rfl]

theorem body_of_ne (hb : b.index < s.func.blocks.size) (hne : b ≠ s.current) :
    s'.func.body b = s.func.body b := by
  rw [h.body, if_neg (BlockId.ne_mk hb), if_neg hne]

end Opens

end Opening

section Closing

variable {s : Builder} {l : OpenLoop}

/-- What closing the loop `l` in `s` leaves behind. -/
structure Closes (s : Builder) (l : OpenLoop) (c : CountedLoop) (s' : Builder) : Prop where
  result : c = ⟨l.preheader, l.header, l.body, s.current, ⟨s.func.blocks.size⟩,
    ⟨s.func.blocks.size + 1⟩, .inst l.iv, .inst ⟨s.func.insts.size + 1⟩⟩
  current : s'.current = ⟨s.func.blocks.size + 1⟩
  size : s'.func.blocks.size = s.func.blocks.size + 2
  count : s'.func.insts.size = s.func.insts.size + 4
  params : s'.func.params = s.func.params
  body : ∀ b, s'.func.body b =
    if b = l.header then s.func.body b ++ [⟨s.func.insts.size + 3⟩]
    else if b = ⟨s.func.blocks.size⟩ then
      s.func.body b ++ [⟨s.func.insts.size + 1⟩, ⟨s.func.insts.size + 2⟩]
    else if b = s.current then s.func.body b ++ [⟨s.func.insts.size⟩]
    else s.func.body b
  op? : ∀ i, s'.func.op? i =
    if i = ⟨s.func.insts.size + 3⟩ then some (.condBr l.cond l.body ⟨s.func.blocks.size + 1⟩)
    else if i = l.iv then (s.func.op? i).map
      (.mapIncoming (· ++ [(⟨s.func.blocks.size⟩, .inst ⟨s.func.insts.size + 1⟩)]))
    else if i = ⟨s.func.insts.size + 2⟩ then some (.br l.header)
    else if i = ⟨s.func.insts.size + 1⟩ then some (.binary .add (.inst l.iv) (.const l.step))
    else if i = ⟨s.func.insts.size⟩ then some (.br ⟨s.func.blocks.size⟩)
    else s.func.op? i
  orderly : s.func.Orderly → s'.func.Orderly

theorem closes (hs : s.current.index < s.func.blocks.size)
    (hh : l.header.index < s.func.blocks.size) (hne : l.header ≠ s.current)
    (hiv : l.iv.index < s.func.insts.size) :
    Closes s l ((closeLoop l).run s).1 ((closeLoop l).run s).2 := by
  obtain ⟨f, current⟩ := s
  let latch : BlockId := ⟨f.blocks.size⟩
  let f₁ := (f.addBlock (l.name ++ ".latch")).2
  let f₂ := (f₁.addBlock (l.name ++ ".exit")).2
  let f₃ := (f₂.appendInst current (.br latch) none).2
  let next : InstId := ⟨f₃.insts.size⟩
  let f₄ := (f₃.appendInst latch (.binary .add (.inst l.iv) (.const l.step)) none).2
  let f₅ := f₄.setName next (some (l.name ++ ".next"))
  let f₆ := (f₅.appendInst latch (.br l.header) none).2
  let f₇ := f₆.modifyOp l.iv (.mapIncoming (· ++ [(latch, .inst next)]))
  let f₈ := (f₇.appendInst l.header (.condBr l.cond l.body ⟨f₁.blocks.size⟩) none).2
  have hrun : (closeLoop l).run ⟨f, current⟩ = (⟨l.preheader, l.header, l.body, current, latch,
    ⟨f₁.blocks.size⟩, .inst l.iv, .inst next⟩, ⟨f₈, ⟨f₁.blocks.size⟩⟩) := by
    simp only [closeLoop, run_bind, run_pure, run_discard, run_current, run_createBlock, run_emit,
      run_switchTo, run_value, run_setName, run_addIncoming, f₈, f₇, f₆, f₅, f₄, f₃, f₂, f₁, latch,
      next]
  simp only at hs hh hne hiv
  have hlatch : l.header ≠ latch := fun he => by simp [he, latch] at hh
  have hcur : latch ≠ current := fun he => by simp [← he, latch] at hs
  have g₁ : f.Grown f₁ 1 0 := (Func.Grown.refl f).addBlock
  have g₂ : f.Grown f₂ 2 0 := g₁.addBlock
  have i₂ : current.index < f₂.blocks.size := by rw [g₂.size]; omega
  have g₃ : f.Grown f₃ 2 1 := g₂.appendInst i₂
  have i₃ : latch.index < f₃.blocks.size := by
    rw [g₃.size]
    exact Nat.lt_add_of_pos_right Nat.two_pos
  have g₅ : f.Grown f₅ 2 2 := (g₃.appendInst i₃).setName _
  have i₅ : latch.index < f₅.blocks.size := i₃.trans_eq (g₃.size.trans g₅.size.symm)
  have g₇ : f.Grown f₇ 2 3 := (g₅.appendInst i₅).modifyOp _
  have i₇ : l.header.index < f₇.blocks.size := by rw [g₇.size]; omega
  have g₈ : f.Grown f₈ 2 4 := g₇.appendInst i₇
  have hnext : next = ⟨f.insts.size + 1⟩ := congrArg _ g₃.count
  rw [hrun, g₁.size]
  exact {
    result := by rw [hnext]
    current := rfl
    size := g₈.size
    count := g₈.count
    params := g₈.params
    body := by
      intro b
      rw [Func.body_appendInst i₇, Func.body_modifyOp, Func.body_appendInst i₅,
        Func.body_setName, Func.body_appendInst i₃, Func.body_appendInst i₂, Func.body_addBlock,
        Func.body_addBlock, g₇.count, g₅.count, g₃.count, g₂.count]
      by_cases hb : b = l.header
      · simp [hb, hlatch, hne]
      · by_cases hb' : b = latch
        · simp [hb', hlatch.symm, hcur, latch]
        · simp only [if_neg hb, if_neg hb', latch, Nat.add_zero]
    op? := by
      intro i
      rw [Func.op?_appendInst, Func.op?_modifyOp, Func.op?_appendInst, Func.op?_setName,
        Func.op?_appendInst, Func.op?_appendInst, g₁.size, g₇.count, g₅.count, g₃.count, g₂.count]
      by_cases hi : i = l.iv
      · -- the phi of the header is older than anything that is added here
        have hlt := InstId.ne_add (hi ▸ hiv)
        simp only [Nat.add_zero, if_neg (hlt 3), if_neg (hlt 2), if_neg (hlt 1),
          if_neg (InstId.ne_mk (hi ▸ hiv)), if_pos hi, hnext]
        rfl
      · simp only [if_neg hi]
        rfl
    orderly := g₈.orderly }

namespace Closes

variable {s' : Builder} {c : CountedLoop} {b : BlockId} {i : InstId} (h : Closes s l c s')

include h

theorem op?_of_lt (hi : i.index < s.func.insts.size) (hne : i ≠ l.iv) :
    s'.func.op? i = s.func.op? i := by
  have hnew := InstId.ne_add hi
  rw [h.op?, if_neg (hnew 3), if_neg hne, if_neg (hnew 2), if_neg (hnew 1),
    if_neg (InstId.ne_mk hi)]

theorem op?_branch :
    s'.func.op? ⟨s.func.insts.size + 3⟩ = some (.condBr l.cond l.body c.exit) := by
  rw [h.op?, if_pos rfl, h.result]

theorem body_header :
    s'.func.body l.header = s.func.body l.header ++ [⟨s.func.insts.size + 3⟩] := by
  rw [h.body, if_pos rfl]

theorem body_latch (hh : l.header.index < s.func.blocks.size) :
    s'.func.body c.latch = [⟨s.func.insts.size + 1⟩, ⟨s.func.insts.size + 2⟩] := by
  have hnil : s.func.body ⟨s.func.blocks.size⟩ = [] := Func.body_eq_nil (Nat.le_refl _)
  rw [h.result, h.body, if_neg (BlockId.ne_mk hh).symm, if_pos rfl, hnil, List.nil_append]

theorem body_tail (hs : s.current.index < s.func.blocks.size) (hne : s.current ≠ l.header) :
    s'.func.body s.current = s.func.body s.current ++ [⟨s.func.insts.size⟩] := by
  rw [h.body, if_neg hne, if_neg (BlockId.ne_mk hs), if_pos rfl]

theorem body_of_ne (hb : b.index < s.func.blocks.size) (hh : b ≠ l.header) (hne : b ≠ s.current) :
    s'.func.body b = s.func.body b := by
  rw [h.body, if_neg hh, if_neg (BlockId.ne_mk hb), if_neg hne]

section

variable (hiv : l.iv.index < s.func.insts.size)

include hiv

theorem op?_iv : s'.func.op? l.iv =
    (s.func.op? l.iv).map (.mapIncoming (· ++ [(c.latch, c.next)])) := by
  rw [h.op?, if_neg (InstId.ne_add hiv 3), if_pos rfl, h.result]

theorem op?_back : s'.func.op? ⟨s.func.insts.size + 2⟩ = some (.br l.header) := by
  rw [h.op?, if_neg (by simp), if_neg (InstId.ne_add hiv 2).symm, if_pos rfl]

theorem op?_next : s'.func.op? ⟨s.func.insts.size + 1⟩ =
    some (.binary .add (.inst l.iv) (.const l.step)) := by
  rw [h.op?, if_neg (by simp), if_neg (InstId.ne_add hiv 1).symm, if_neg (by simp), if_pos rfl]

theorem op?_jump : s'.func.op? ⟨s.func.insts.size⟩ = some (.br c.latch) := by
  rw [h.op?, if_neg (by simp), if_neg (InstId.ne_mk hiv).symm, if_neg (by simp), if_neg (by simp),
    if_pos rfl, h.result]

end

end Closes

end Closing

end Build

end LoopFusion
