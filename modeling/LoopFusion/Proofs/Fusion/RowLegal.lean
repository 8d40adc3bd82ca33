import LoopFusion.Proofs.Fusion.FusedCount
import LoopFusion.Proofs.Fusion.Leak
import LoopFusion.Proofs.Fusion.Pairing
import LoopFusion.Proofs.Fusion.Row
import LoopFusion.Proofs.Memory.Subscripts

/-!
Two loops of a row that follow each other may be fused, when the bodies compute with what they are
given and no array that one of them stores to is accessed by another.
-/

namespace LoopFusion

open Relation LoopFusion.Flow Check

/-- The array that an instruction accesses. -/
def Func.array? (f : Func) (i : InstId) : Option Nat :=
  ((f.op? i).bind Operation.address?).bind f.basePointer?

theorem Oracle.answer_of_ne {f : Func} {x y : InstId} {k k' : Nat} (hx : f.array? x = some k)
    (hy : f.array? y = some k') (hne : k ≠ k') (t : LoopForest) (e : Engine) (same : Bool)
    (s : Session) : answer f t e x y same s = (none, s) := by
  obtain ⟨addr, hax, hbx⟩ := Option.bind_eq_some_iff.1 hx
  obtain ⟨op, hop, haddr⟩ := Option.bind_eq_some_iff.1 hax
  obtain ⟨addr', hay, hby⟩ := Option.bind_eq_some_iff.1 hy
  obtain ⟨op', hop', haddr'⟩ := Option.bind_eq_some_iff.1 hay
  have harray : sameArray? f op op' = some false := by
    simp [sameArray?, haddr, haddr', hbx, hby, hne]
  rw [answer, hop, hop']
  simp only [harray]
  split <;> rfl

namespace Check

theorem forM_yields_same {α : Type} {l : List α} {g : α → Check Unit} {s : Session}
    (h : ∀ x ∈ l, (g x).Yields s () s) : (l.forM g).Yields s () s := by
  induction l with
  | nil => exact pure_yields.2 ⟨rfl, rfl⟩
  | cons x l ih =>
    obtain ⟨hx, hl⟩ := List.forall_mem_cons.1 h
    exact bind_yields.2 ⟨(), s, hx, ih hl⟩

end Check

namespace Checker

variable {c : Checker} {f : Func} {a b : Loop} {x y : InstId} {s s' : Session} {p : Poly}

theorem checkPair_yields_of_none (h : c.oracle.depends x y true s = (none, s)) :
    (c.checkPair a b (x, y)).Yields s () s :=
  bind_yields.2 ⟨none, s, ask_yields.2 h, pure_yields.2 ⟨rfl, rfl⟩⟩

theorem checkTripCounts_of_eq (ha : c.engine.tripCount a.id s = (some p, s'))
    (hb : c.engine.tripCount b.id s' = (some p, s')) : (c.checkTripCounts a b).Yields s () s' := by
  simp only [checkTripCounts, tripCount, bind_yields, ask_yields, need_yields, demand_yields]
  exact ⟨p, s', ⟨_, s', ha, rfl, rfl⟩, p, s', ⟨_, s', hb, rfl, rfl⟩, _, s', rfl, _, s', rfl,
    decide_eq_true rfl, rfl⟩

theorem checkVariables_of_eq {iva ivb : InductionVariable} (ha : a.iv? = some iva)
    (hb : b.iv? = some ivb) (hstep : iva.step = ivb.step)
    (hsa : c.engine.evolution iva.start (some a.id) s = (.invariant p, s))
    (hsb : c.engine.evolution ivb.start (some b.id) s = (.invariant p, s)) :
    (c.checkVariables a b).Yields s () s := by
  simp only [checkVariables, bind_yields, ask_yields, need_yields, demand_yields]
  refine ⟨iva, s, ⟨ha, rfl⟩, ivb, s, ⟨hb, rfl⟩, (), s, ⟨decide_eq_true hstep, rfl⟩, _, s, hsa, _, s,
    hsb, ?_⟩
  exact demand_yields.2 ⟨decide_eq_true rfl, rfl⟩

end Checker

theorem Operation.address?_mapOperands (g : Value → Value) (op : Operation) :
    (op.mapOperands g).address? = op.address?.map g := by cases op <;> rfl

theorem Operation.accessesMemory_mapOperands (g : Value → Value) (op : Operation) :
    (op.mapOperands g).accessesMemory = op.accessesMemory := by cases op <;> rfl

theorem Operation.Plain.mapOperands {op : Operation} (h : op.Plain) (g : Value → Value) :
    (op.mapOperands g).Plain := by simpa [Operation.Plain] using h

theorem Func.mem_uses {f : Func} {i j : InstId} : j ∈ f.uses i ↔ .inst j ∈ f.operands i := by
  have hinst : ∀ v : Value, v.inst? = some j ↔ v = .inst j := fun v => by
    cases v <;> simp [Value.inst?]
  rw [Func.uses, Func.operands]
  cases f.op? i with
  | none => simp
  | some op => simp [Operation.uses, List.mem_filterMap, hinst]

theorem Value.Outer.ne_inst {v : Value} {i : InstId} (h : v.Outer) : v ≠ .inst i := by
  rintro rfl
  obtain ⟨_, h⟩ | ⟨_, h⟩ := h <;> cases h

namespace Draft

/-- The bodies compute with constants, parameters, their induction variable and what they have
computed themselves, and no array that one of them stores to is accessed by another. -/
structure Independent (d : Draft) : Prop where
  nodup : d.loops.Nodup
  start : d.start.Outer
  bound : d.bound.Outer
  counter : ∀ m ∈ d.loops, ∃ iv, m.iv = .inst iv ∧ d.func.isPhi iv
  own : ∀ m ∈ d.loops, ∀ i ∈ d.func.body m.body, ¬ d.func.isTerminator i →
    ∃ op, d.func.op? i = some op ∧ op.Plain ∧
      ∀ v ∈ op.operands, v.Outer ∨ v = m.iv ∨ ∃ j ∈ d.func.body m.body, v = .inst j
  rooted : ∀ m ∈ d.loops, ∀ i ∈ d.func.body m.body, d.func.accessesMemory i →
    (d.func.array? i).isSome
  apart : ∀ m ∈ d.loops, ∀ n ∈ d.loops, m ≠ n → ∀ i ∈ d.func.body m.body,
    ∀ j ∈ d.func.body n.body, d.func.writesMemory i → d.func.accessesMemory j →
      d.func.array? i ≠ d.func.array? j

/-- How often each loop takes its back edge. -/
def count (d : Draft) (t : SymbolTable) : Option Poly × SymbolTable :=
  d.func.count (Build.continueTest d.step) d.start d.bound d.step.toInt t

/-- What an instruction of a loop of a row does. -/
inductive Does (d : Draft) (f : Func) (c : Cell) (x : BlockId) (i : InstId) : Operation → Prop
  | counter : x = c.made.header →
    Does d f c x i (.phi [(c.made.preheader, d.start), (c.made.latch, c.made.next)])
  | test : Does d f c x i (.compare (Build.continueTest d.step) c.made.iv d.bound)
  | choose {cond : InstId} : cond ∈ f.body x →
    Does d f c x i (.condBr (.inst cond) c.made.body c.made.exit)
  | advance : Does d f c x i (.binary .add c.made.iv (.const d.step))
  | jump (y : BlockId) : Does d f c x i (.br y)
  /-- As it was written, but for the induction variable. -/
  | own {m : CountedLoop} {op : Operation} : m ∈ c.parts → x = m.body → d.func.op? i = some op →
    (∀ v ∈ op.operands, v.Outer ∨ v = m.iv ∨ ∃ j ∈ f.body m.body, v = .inst j) →
      Does d f c x i (op.mapOperands (replace m.iv c.made.iv))

namespace Row

variable {d : Draft} {f : Func} {e x y : BlockId} {cells : List Cell} {a c : Cell} {l : Loop}
  {i j : InstId} {v : Value} {m n : CountedLoop} {op : Operation} (h : d.Row f e cells)

include h

theorem mem_loops (hc : c ∈ cells) (hm : m ∈ c.parts) : m ∈ d.loops := by
  rw [← h.parts]
  exact List.mem_flatMap.2 ⟨c, hc, hm⟩

theorem preheader (hc : c ∈ cells) : ∃ i, f.body c.made.preheader = [i] ∧
    f.op? i = some (.br c.made.header) := by
  obtain ⟨i, hbody⟩ := h.passes c hc
  have henter : f.exitOp? c.made.preheader = some (.br c.made.header) := (h.code c hc).enter
  obtain ⟨t, hlast, hop, -⟩ := Func.exitOp?_eq_some henter
  rw [hbody, List.getLast?_singleton] at hlast
  exact ⟨i, hbody, Option.some.inj hlast ▸ hop⟩

theorem header (hc : c ∈ cells) : ∃ iv cond br, c.made.iv = .inst iv ∧
    f.body c.made.header = [iv, cond, br] ∧
    f.op? iv = some (.phi [(c.made.preheader, d.start), (c.made.latch, c.made.next)]) ∧
    f.op? cond = some (.compare (Build.continueTest d.step) (.inst iv) d.bound) ∧
    f.op? br = some (.condBr (.inst cond) c.made.body c.made.exit) := (h.code c hc).header

theorem latch (hc : c ∈ cells) : ∃ next br, c.made.next = .inst next ∧
    f.body c.made.latch = [next, br] ∧
    f.op? next = some (.binary .add c.made.iv (.const d.step)) ∧
    f.op? br = some (.br c.made.header) := (h.code c hc).latch

theorem exitOp?_body (hc : c ∈ cells) (hx : x ∈ c.bodies) : ∃ y, f.exitOp? x = some (.br y) := by
  have ht := h.threaded c hc
  rcases ht.next_or_tail hx with ⟨j, y, hj, hy⟩ | rfl
  · exact ⟨y, ht.jumps j x y hj hy⟩
  · exact ⟨_, (h.code c hc).repeats⟩

theorem live_of_inLoop (hc : c ∈ cells) (hx : f.InLoop e c.made.header x) : x ∈ f.layout :=
  h.mem_layout.2 (.inr ⟨c, hc, .inr ((h.inLoop_iff hc).1 hx)⟩)

omit h in
theorem op?_of_isTerminator (hw : f.WellFormed e) (hx : x ∈ f.layout) (hi : i ∈ f.body x)
    (ht : f.isTerminator i) (hop : f.exitOp? x = some op) : f.op? i = some op := by
  have hterm := (hw.terminator?_eq_some_iff hx hx hi).2 ⟨rfl, ht⟩
  rwa [Func.exitOp?, hterm, Option.bind_some] at hop

variable (hd : d.Independent)

include hd

theorem op?_body (hc : c ∈ cells) (hm : m ∈ c.parts) (hi : i ∈ f.body m.body)
    (ht : ¬ d.func.isTerminator i) : ∃ op, d.func.op? i = some op ∧
      f.op? i = some (op.mapOperands (replace m.iv c.made.iv)) ∧ op.Plain ∧
        ∀ v ∈ op.operands, v.Outer ∨ v = m.iv ∨ ∃ j ∈ f.body m.body, v = .inst j := by
  obtain ⟨hbody, hops⟩ := h.kept c hc m hm
  obtain ⟨op, hop, hplain, hown⟩ := hd.own m (h.mem_loops hc hm) i (hbody ▸ hi) ht
  refine ⟨op, hop, ?_, hplain, hbody ▸ hown⟩
  rw [(hops i hi).2 ht, hop, Option.map_some]

theorem exists_does (hc : c ∈ cells) (hx : f.InLoop e c.made.header x) (hi : i ∈ f.body x) :
    ∃ op, f.op? i = some op ∧ d.Does f c x i op := by
  have hlive := h.live_of_inLoop hc hx
  obtain ⟨iv, cond, br, hiv, hhead, hphi, hcmp, hbr⟩ := h.header hc
  obtain ⟨next, back, -, hlatch, hadd, hback⟩ := h.latch hc
  rcases (h.inLoop_iff hc).1 hx with rfl | hx | rfl
  · have hcond : cond ∈ f.body c.made.header := by rw [hhead]; simp
    rw [hhead] at hi
    simp only [List.mem_cons, List.not_mem_nil, or_false] at hi
    rcases hi with rfl | rfl | rfl
    · exact ⟨_, hphi, .counter rfl⟩
    · exact ⟨_, hcmp, hiv ▸ .test⟩
    · exact ⟨_, hbr, .choose hcond⟩
  · obtain ⟨m, hm, rfl⟩ := List.mem_map.1 hx
    by_cases ht : d.func.isTerminator i
    · rw [← ((h.kept c hc m hm).2 i hi).1] at ht
      obtain ⟨y, hy⟩ := h.exitOp?_body hc hx
      exact ⟨_, op?_of_isTerminator h.wellFormed hlive hi ht hy, .jump y⟩
    · obtain ⟨op, hop, hnow, -, hown⟩ := h.op?_body hd hc hm hi ht
      exact ⟨_, hnow, .own hm rfl hop hown⟩
  · rw [hlatch] at hi
    simp only [List.mem_cons, List.not_mem_nil, or_false] at hi
    rcases hi with rfl | rfl
    · exact ⟨_, hadd, .advance⟩
    · exact ⟨_, hback, .jump _⟩

theorem operand_in (hc : c ∈ cells) (hx : f.InLoop e c.made.header x) (hi : i ∈ f.body x)
    (hv : v ∈ f.operands i) : v.Outer ∨ v = c.made.iv ∨ ∃ j, v = .inst j ∧
      (j ∈ f.body x ∨ x = c.made.header ∧ j ∈ f.body c.made.latch) := by
  obtain ⟨op, hop, hdoes⟩ := h.exists_does hd hc hx hi
  rw [Func.operands, hop, Option.elim_some] at hv
  cases hdoes with
  | counter hx =>
    obtain ⟨next, back, hnext, hlatch, -⟩ := h.latch hc
    simp only [Operation.operands, List.map_cons, List.map_nil, List.mem_cons, List.not_mem_nil,
      or_false] at hv
    rcases hv with rfl | rfl
    · exact .inl hd.start
    · exact .inr (.inr ⟨next, hnext, .inr ⟨hx, by rw [hlatch]; exact List.mem_cons_self ..⟩⟩)
  | test =>
    simp only [Operation.operands, List.mem_cons, List.not_mem_nil, or_false] at hv
    rcases hv with rfl | rfl
    · exact .inr (.inl rfl)
    · exact .inl hd.bound
  | choose hcond =>
    simp only [Operation.operands, List.mem_singleton] at hv
    exact .inr (.inr ⟨_, hv, .inl hcond⟩)
  | advance =>
    simp only [Operation.operands, List.mem_cons, List.not_mem_nil, or_false] at hv
    rcases hv with rfl | rfl
    · exact .inr (.inl rfl)
    · exact .inl (.inl ⟨_, rfl⟩)
  | jump => cases hv
  | own hm hx _ hown =>
    rw [Operation.operands_mapOperands] at hv
    obtain ⟨u, hu, rfl⟩ := List.mem_map.1 hv
    rw [replace]
    split
    · exact .inr (.inl rfl)
    · rcases hown u hu with hu | hu | ⟨j, hj, rfl⟩
      · exact .inl hu
      · contradiction
      · exact .inr (.inr ⟨j, rfl, .inl (hx ▸ hj)⟩)

theorem read_in (hc : c ∈ cells) (hx : f.InLoop e c.made.header x) (hi : i ∈ f.body x)
    (hv : .inst j ∈ f.operands i) : ∃ y, f.InLoop e c.made.header y ∧ j ∈ f.body y := by
  rcases h.operand_in hd hc hx hi hv with hout | hiv | ⟨k, hk, hk' | ⟨rfl, hk'⟩⟩
  · exact absurd rfl (hout.ne_inst (i := j))
  · obtain ⟨iv, cond, br, hiv', hhead, -⟩ := h.header hc
    obtain rfl := Value.inst.inj (hiv.trans hiv')
    exact ⟨_, h.header_in hc, by rw [hhead]; exact List.mem_cons_self ..⟩
  · obtain rfl := Value.inst.inj hk
    exact ⟨x, hx, hk'⟩
  · obtain rfl := Value.inst.inj hk
    exact ⟨_, h.latch_in hc, hk'⟩

/-- What a loop computes is used in it only. Its induction variable may be returned, too. -/
theorem used_in (hc : c ∈ cells) (hx : f.InLoop e c.made.header x) (hj : j ∈ f.body x)
    (hne : y = Cell.last e cells → .inst j ≠ c.made.iv) (hy : y ∈ f.layout) (hi : i ∈ f.body y)
    (hv : .inst j ∈ f.operands i) : f.InLoop e c.made.header y := by
  rcases h.mem_layout.1 hy with rfl | ⟨a, ha, rfl | hya⟩
  · obtain ⟨r, u, hbody, hop, hout⟩ := h.returns
    rw [hbody, List.mem_singleton] at hi
    rw [hi, Func.operands, hop] at hv
    rcases hout _ (by simpa [Operation.operands] using hv) with hout | ⟨a, ha, hiv⟩
    · exact absurd rfl (hout.ne_inst (i := j))
    · obtain ⟨iv, cond, br, hiv', hhead, -⟩ := h.header ha
      obtain rfl := Value.inst.inj (hiv.trans hiv')
      have hin := h.header_in ha
      obtain rfl := h.wellFormed.block_unique (h.live_of_inLoop hc hx) (h.live_of_inLoop ha hin) hj
        (by rw [hhead]; exact List.mem_cons_self ..)
      exact absurd (h.eq_of_inLoop hc ha hx hin ▸ hiv) (hne rfl)
  · obtain ⟨r, hbody, hop⟩ := h.preheader ha
    rw [hbody, List.mem_singleton] at hi
    rw [hi, Func.operands, hop] at hv
    cases hv
  · have hya := (h.inLoop_iff ha).2 hya
    obtain ⟨z, hz, hjz⟩ := h.read_in hd ha hya hi hv
    obtain rfl := h.wellFormed.block_unique (h.live_of_inLoop hc hx) (h.live_of_inLoop ha hz) hj hjz
    rwa [h.eq_of_inLoop hc ha hx hz]

theorem used_at_ends (hc : c ∈ cells) (hx : x = c.made.header ∨ x = c.made.latch)
    (hj : j ∈ f.body x) (hne : .inst j ≠ c.made.iv) (hy : y ∈ f.layout) (hi : i ∈ f.body y)
    (hv : .inst j ∈ f.operands i) : y = c.made.header ∨ y = c.made.latch := by
  have hin : f.InLoop e c.made.header x := (h.inLoop_iff hc).2 (hx.imp_right .inr)
  rcases h.operand_in hd hc (h.used_in hd hc hin hj (fun _ => hne) hy hi hv) hi hv with
    hout | hiv | ⟨k, hk, hk' | ⟨rfl, -⟩⟩
  · exact absurd rfl (hout.ne_inst (i := j))
  · exact absurd hiv hne
  · obtain rfl := Value.inst.inj hk
    rwa [h.wellFormed.block_unique hy (h.live_of_inLoop hc hin) hk' hj] at hx
  · exact .inl rfl

theorem rootOf?_replace (hc : c ∈ cells) (hm : m ∈ c.parts) {fuel k : Nat} {u : Value}
    (hu : u.Outer ∨ u = m.iv ∨ ∃ j ∈ f.body m.body, u = .inst j)
    (hk : d.func.rootOf? fuel u = some k) :
    f.rootOf? fuel (replace m.iv c.made.iv u) = some k := by
  induction fuel generalizing u with
  | zero => cases hk
  | succ fuel ih =>
    obtain ⟨iv, hiv, hphi⟩ := hd.counter m (h.mem_loops hc hm)
    have hgep : ∀ {i : InstId}, u = .inst i → ∃ base offset,
        d.func.op? i = some (.gep base offset) ∧ d.func.rootOf? fuel base = some k := by
      rintro i rfl
      rw [Func.rootOf?] at hk
      split at hk
      case h_1 base offset hop => exact ⟨base, offset, hop, hk⟩
      case h_2 => cases hk
    have hne : u ≠ m.iv := by
      rintro rfl
      obtain ⟨base, offset, hop, -⟩ := hgep hiv
      rw [Func.isPhi, hop] at hphi
      cases hphi
    have hsame : replace m.iv c.made.iv u = u := if_neg hne
    rw [hsame]
    rcases hu with (⟨c, rfl⟩ | ⟨n, rfl⟩) | hu | ⟨j, hj, rfl⟩
    · cases hk
    · rw [Func.rootOf?] at hk ⊢
      rwa [Func.paramType?, h.params]
    · exact absurd hu hne
    · obtain ⟨base, offset, hop, hbase⟩ := hgep rfl
      have ht : ¬ d.func.isTerminator j := by
        rw [Func.isTerminator, hop]
        exact Bool.false_ne_true
      obtain ⟨op, hop', hnow, -, hown⟩ := h.op?_body hd hc hm hj ht
      obtain rfl := Option.some.inj (hop.symm.trans hop')
      rw [Func.rootOf?, hnow]
      exact ih (hown base (List.mem_cons_self ..)) hbase

theorem access (hc : c ∈ cells) (hx : f.InLoop e c.made.header x) (hi : i ∈ f.body x)
    (hacc : f.accessesMemory i) : ∃ m ∈ c.parts, i ∈ d.func.body m.body ∧
      d.func.accessesMemory i ∧ f.writesMemory i = d.func.writesMemory i ∧
        ∃ k, d.func.array? i = some k ∧ f.array? i = some k := by
  obtain ⟨op, hnow, hdoes⟩ := h.exists_does hd hc hx hi
  rw [Func.accessesMemory, hnow, Option.any_some] at hacc
  cases hdoes with
  | @own m op hm hx hop hown =>
    subst hx
    have hbody := (h.kept c hc m hm).1
    have hacc' : d.func.accessesMemory i := by
      rw [Operation.accessesMemory_mapOperands] at hacc
      rwa [Func.accessesMemory, hop, Option.any_some]
    obtain ⟨k, hk⟩ := Option.isSome_iff_exists.1
      (hd.rooted m (h.mem_loops hc hm) i (hbody ▸ hi) hacc')
    refine ⟨m, hm, hbody ▸ hi, hacc', ?_, k, hk, ?_⟩
    · rw [Func.writesMemory, Func.writesMemory, hnow, hop]
      exact Operation.writesMemory_mapOperands _ _
    · obtain ⟨addr, haddr, hbase⟩ := Option.bind_eq_some_iff.1 hk
      rw [hop, Option.bind_some] at haddr
      rw [Func.array?, hnow, Option.bind_some, Operation.address?_mapOperands, haddr,
        Option.map_some, Option.bind_some]
      exact h.rootOf?_replace hd hc hm (hown addr (Operation.mem_operands_of_address? haddr)) hbase
  | _ => cases hacc

theorem parts_ne (hc : c ∈ cells) (ha : a ∈ cells) (hne : c ≠ a) (hm : m ∈ c.parts)
    (hn : n ∈ a.parts) : m ≠ n := by
  rintro rfl
  obtain ⟨s, t, rfl⟩ := List.append_of_mem hc
  have hnodup := hd.nodup
  rw [← h.parts, List.flatMap_append, List.flatMap_cons, List.nodup_append,
    List.nodup_append] at hnodup
  obtain ⟨-, ⟨-, -, hct⟩, hs⟩ := hnodup
  rcases List.mem_append.1 ha with ha | ha
  · exact hs m (List.mem_flatMap.2 ⟨a, ha, hn⟩) m (List.mem_append_left _ hm) rfl
  · have ha := (List.mem_cons.1 ha).resolve_left hne.symm
    exact hct m hm m (List.mem_flatMap.2 ⟨a, ha, hn⟩) rfl

theorem tripCount_eq (hc : c ∈ cells) (hl : l ∈ f.forest.loops) (hlc : l.header = c.made.header)
    (s : Session) : Describe.tripCount f f.forest l.id s =
      ((d.count s.symbols).1, { s with symbols := (d.count s.symbols).2 }) := by
  have hf := h.staged.inArena
  have he := h.staged.entry
  obtain ⟨phi, next, hphi, -, hiv⟩ := ((h.stands hc).found h.staged hl hlc).iv
  obtain ⟨iv, cond, br, hiv', hhead, -, hcmp, hbr⟩ := h.header hc
  obtain rfl : phi = iv := Value.inst.inj (hphi.symm.trans hiv')
  have hexit : f.exitOp? l.header = some (.condBr (.inst cond) c.made.body c.made.exit) := by
    rw [hlc]
    exact Func.exitOp?_of_getLast? (by rw [hhead]; rfl) hbr rfl
  have hin : l.contains c.made.body = true := by
    rw [LoopForest.contains_iff hf he hl, hlc]
    exact ((h.stands hc).gated h.staged).bodyHead_in
  have hout : l.contains c.made.exit = false := by
    rw [← Bool.not_eq_true, LoopForest.contains_iff hf he hl, hlc]
    exact ((h.stands hc).gated h.staged).exit_out
  have hstay : StayTest.ofLoop? f l = some ⟨⟨phi, d.start, d.step.toInt, next⟩,
      Build.continueTest d.step, d.bound⟩ := by
    have hexiting := ((h.stands hc).shaped h.staged (k := .builtIn (.ofFunc f) true) rfl hl
      hlc).exiting
    rw [StayTest.ofLoop?_eq hexiting hexit, hiv, StayTest.stayOnTrue?, hin, hout]
    simp [Value.inst?, hcmp, StayTest.orient?, InductionVariable.value, call]
  rw [Describe.tripCount_outer (by rw [LoopForest.loop?_id hl, Option.bind_some, hstay]) hd.start
    hd.bound, Func.count_congr h.params hd.start hd.bound]
  rfl

section Pair

variable {b : Cell} {l' : Loop} {keep : Bool} (ha : a ∈ cells) (hb : b ∈ cells)
  (hab : a.made.exit = b.made.preheader) (hl : l ∈ f.forest.loops) (hla : l.header = a.made.header)
  (hl' : l' ∈ f.forest.loops) (hlb : l'.header = b.made.header)

include ha hb hab hl hla hl' hlb

omit hd in
theorem meets : (Checker.builtIn (.ofFunc f) keep).Meets l l' := by
  have hf := h.staged.inArena
  have he := h.staged.entry
  have hg := (h.stands ha).gated h.staged
  have hguard := h.unguarded hb hl' hlb
  have hr := LoopForest.region_is hf he hl
  have hexits : ∀ x, x ∈ l.nonLatchExits ↔ x = a.made.exit := by
    intro x
    have hregion : l.region.header = a.made.header := hla
    rw [LoopForest.nonLatchExits_eq hl, Region.mem_nonLatchExits hr, hregion]
    constructor
    · rintro ⟨hout, y, ⟨hy, -⟩, hyx⟩
      exact (hg.leave y x hy hyx hout).2
    · rintro rfl
      refine ⟨hg.exit_out, _, ⟨hg.header_in, fun hback => ?_⟩, hg.exit_edge⟩
      obtain ⟨hheader, -, hlatch, -⟩ := h.placed ha
      have heq : a.made.header = a.made.latch := ((h.span ha).back_iff h.staged).1 hback
      rw [← heq] at hlatch
      omega
  refine ⟨fun hnil => ?_, a.made.exit, ?_, fun x => (hexits x).1, ?_⟩
  · have := (hexits a.made.exit).2 rfl
    rw [hnil] at this
    cases this
  · rw [Loop.entry?, hguard, hab]
    exact ((h.stands hb).found h.staged hl' hlb).preheader
  · obtain ⟨i, hi⟩ := h.passes b hb
    have hbody : (Checker.builtIn (.ofFunc f) keep).func.body b.made.preheader = [i] := hi
    simp [Checker.handsOff, hguard, hab, hbody]

omit hd hl hl' in
theorem flow : (Dominators.ofCfg (Cfg.ofFunc f)).dominates l.header l'.header ∧
    (PostDominators.ofCfg (Cfg.ofFunc f)).dominates l'.header l.header := by
  have hf := h.staged.inArena
  have he := h.staged.entry
  obtain ⟨hheader, -, hlatch, hexit⟩ := h.placed ha
  obtain ⟨hheader', -⟩ := h.placed hb
  rw [hla, hlb, Dominators.dominates_iff hf he, PostDominators.dominates_iff hf he]
  rw [hab] at hexit
  refine ⟨h.dom_header ha ?_ (by omega), h.postDom ha hb (by rw [hab])⟩
  exact h.live_of_inLoop hb (h.header_in hb)

omit hab in
theorem scalars (hne : a ≠ b) : Checker.leak? f l l' = none := by
  have hf := h.staged.inArena
  have he := h.staged.entry
  obtain ⟨phi, next, -, -, hiv⟩ := ((h.stands hb).found h.staged hl' hlb).iv
  have hstart : (l'.iv?.bind (·.start.inst?)).toList = [] := by
    rw [hiv, Option.bind_some]
    change d.start.inst?.toList = []
    rcases hd.start with ⟨c, hs⟩ | ⟨k, hs⟩ <;> rw [hs] <;> rfl
  refine Checker.leak?_eq_none fun j hj => ?_
  simp only [Checker.reads, hstart, List.append_nil, List.mem_reverse, List.mem_flatMap] at hj
  obtain ⟨i, ⟨x, hx, hi⟩, hj⟩ := hj
  have hxb : f.InLoop e b.made.header x := by
    rw [← hlb, ← LoopForest.contains_iff hf he hl']
    exact List.contains_iff_mem.2 hx
  obtain ⟨y, hyb, hjy⟩ := h.read_in hd hb hxb hi (Func.mem_uses.1 hj)
  rw [h.wellFormed.owner y (h.live_of_inLoop hb hyb) j hjy, Option.any_some, Option.any_some,
    LoopForest.contains_iff hf he hl', LoopForest.contains_iff hf he hl, hla, hlb]
  exact ⟨hyb, fun hya => hne (h.eq_of_inLoop ha hb hya hyb)⟩

omit hab in
theorem pair_apart (hne : a ≠ b) {i j : InstId} {s : Session}
    (hij : (i, j) ∈ (Checker.builtIn (.ofFunc f) keep).pairs l l') :
    (Checker.builtIn (.ofFunc f) keep).oracle.depends i j true s = (none, s) := by
  have hf := h.staged.inArena
  have he := h.staged.entry
  obtain ⟨hi, hj, hacc, hacc', hwr⟩ := Checker.of_mem_pairs hij
  obtain ⟨x, hx, hi⟩ := List.mem_flatMap.1 hi
  obtain ⟨y, hy, hj⟩ := List.mem_flatMap.1 hj
  have hxa : f.InLoop e a.made.header x := by
    rw [← hla, ← LoopForest.contains_iff hf he hl]
    exact List.contains_iff_mem.2 hx
  have hyb : f.InLoop e b.made.header y := by
    rw [← hlb, ← LoopForest.contains_iff hf he hl']
    exact List.contains_iff_mem.2 hy
  obtain ⟨m, hm, hi', hwas, hwr₁, k, hk, hk'⟩ := h.access hd ha hxa hi hacc
  obtain ⟨n, hn, hj', hwas', hwr₂, k', hn', hn''⟩ := h.access hd hb hyb hj hacc'
  have hmn := h.parts_ne hd ha hb hne hm hn
  refine Oracle.answer_of_ne hk' hn'' (fun hkk => ?_) _ _ _ _
  have hsame : d.func.array? i = d.func.array? j := by rw [hk, hn', hkk]
  rcases hwr with hwr | hwr
  · exact hd.apart m (h.mem_loops ha hm) n (h.mem_loops hb hn) hmn i hi' j hj'
      (hwr₁ ▸ hwr) hwas' hsame
  · exact hd.apart n (h.mem_loops hb hn) m (h.mem_loops ha hm) hmn.symm j hj' i hi'
      (hwr₂ ▸ hwr) hwas hsame.symm

/-- Two loops of a row that follow each other pass all checks. -/
theorem legal (hcount : ∀ t, (d.count t).1.isSome) (s : Session) :
    ∃ s', (Checker.builtIn (.ofFunc f) keep).Legal l l' s s' := by
  have hf := h.staged.inArena
  have he := h.staged.entry
  have hne : a ≠ b := by
    rintro rfl
    obtain ⟨-, -, -, hexit⟩ := h.placed ha
    rw [hab] at hexit
    omega
  have hdepth : ∀ {l}, l ∈ f.forest.loops → f.forest.depth l.id = 1 := fun hl => by
    rw [LoopForest.depth_of_parent hf he hl, h.parent hl]
    rfl
  obtain ⟨p, hp⟩ := Option.isSome_iff_exists.1 (hcount s.symbols)
  obtain ⟨phi, next, -, -, hiv⟩ := ((h.stands ha).found h.staged hl hla).iv
  obtain ⟨phi', next', -, -, hiv'⟩ := ((h.stands hb).found h.staged hl' hlb).iv
  -- once the first count is known, both ends have their names
  let s' : Session := { s with symbols := (d.count s.symbols).2 }
  have hfirst : Describe.tripCount f f.forest l.id s = (some p, s') := by
    rw [h.tripCount_eq hd ha hl hla, hp]
  have hsecond : Describe.tripCount f f.forest l'.id s' = (some p, s') := by
    have hagain : d.count s'.symbols = ((d.count s.symbols).1, s'.symbols) :=
      Func.count_of_le (SymbolTable.le_refl _)
    rw [h.tripCount_eq hd hb hl' hlb, hagain, hp]
  have hstart : ∀ scope, Describe.value f f.forest (Describe.maxDepth + 1) d.start scope s' =
      (.invariant (f.poly d.start (f.poly d.bound s.symbols).2).1, s') := by
    refine Describe.value_outer_of_le hd.start ?_ _ _
    rw [Func.poly_congr h.params hd.start, Func.poly_congr h.params hd.bound]
    exact SymbolTable.le_refl _
  exact ⟨s', ⟨by rw [h.parent hl, h.parent hl'], (hdepth hl).trans (hdepth hl').symm⟩,
    (h.stands ha).shaped h.staged rfl hl hla, (h.stands hb).shaped h.staged rfl hl' hlb,
    h.meets ha hb hab hl hla hl' hlb, h.flow ha hb hab hla hlb,
    h.scalars hd ha hb hl hla hl' hlb hne, s', s', Checker.checkTripCounts_of_eq hfirst hsecond,
    Checker.checkVariables_of_eq hiv hiv' rfl (hstart _) (hstart _),
    forM_yields_same fun ⟨i, j⟩ hij =>
      Checker.checkPair_yields_of_none (h.pair_apart hd ha hb hl hla hl' hlb hne hij)⟩

end Pair

end Row

end Draft

end LoopFusion
