import LoopFusion.Proofs.Fusion.FusedVerified
import LoopFusion.Proofs.Semantics.Values

/-!
One block of the fused function beside the same block of the function it comes from. The values that
both stores have before the block they have behind it, the memories agree where they did, and control
goes on to where the plan sends it.
-/

namespace LoopFusion.FusionPlan

open Relation LoopFusion.Flow

variable {p : FusionPlan} {f : Func} {e b : BlockId} {i d : InstId} {op : Operation}
  {args : List Int} {K : InstId → Prop} {s s' : Store} {w w' v : Visit} {a : Int}

theorem lookup_map {α β γ δ : Type} [BEq α] [LawfulBEq α] [BEq γ] [LawfulBEq γ] {l : List (α × β)}
    {g : α → γ} {k : β → δ} {x : α} (h : ∀ y ∈ l.map (·.1), g y = g x → y = x) :
    (l.map fun y => (g y.1, k y.2)).lookup (g x) = (l.lookup x).map k := by
  induction l with
  | nil => rfl
  | cons y l ih =>
    obtain ⟨y, v⟩ := y
    rw [List.map_cons, List.forall_mem_cons] at h
    rw [List.map_cons, List.lookup_cons, List.lookup_cons, ih h.2]
    by_cases hxy : x = y
    · rw [hxy, beq_self_eq_true, beq_self_eq_true, Option.map_some]
    · rw [beq_false_of_ne hxy, beq_false_of_ne fun he => hxy (h.1 he.symm).symm]

/-- What stands for `d` in the fused function. -/
def heir (p : FusionPlan) (d : InstId) : InstId := replace p.second.iv p.first.iv d

theorem heir_of_ne (h : d ≠ p.second.iv) : p.heir d = d := if_neg h

theorem renamed_inst (p : FusionPlan) (d : InstId) : p.renamed (.inst d) = .inst (p.heir d) := by
  by_cases h : d = p.second.iv
  · rw [h, renamed_second, heir, replace, if_pos rfl]
  · rw [heir_of_ne h, renamed_of_ne (mt Value.inst.inj h)]

/-- The store `s'` of the fused function has the values in `K` that `s` has. -/
def Sees (p : FusionPlan) (K : InstId → Prop) (s' s : Store) : Prop :=
  ∀ d, K d → s'.env (p.heir d) = s.env d

theorem Sees.eval {v : Value} (h : p.Sees K s' s) (hv : ∀ d, v = .inst d → K d) :
    (p.renamed v).eval args s'.env = v.eval args s.env := by
  cases v with
  | inst d =>
    rw [renamed_inst]
    exact h d (hv d rfl)
  | _ => rfl

/-- The block stays, and the values in `K` are all that it computes and all that it reads behind its
phis. -/
structure Suffices (p : FusionPlan) (f : Func) (K : InstId → Prop) (b : BlockId) : Prop where
  live : b ∈ f.layout
  stays : b ∉ p.retired
  own : ∀ i ∈ f.body b, K i
  counter : K p.second.iv → b ≠ p.first.header
  operands : ∀ i ∈ f.body b, ∀ op, f.op? i = some op → ¬ op.isPhi → ∀ d, .inst d ∈ op.operands → K d

/-- The phis of the block take the same values in the fused function, all of them in `K`. -/
def Enters (p : FusionPlan) (f : Func) (K : InstId → Prop) (w' w : Visit) : Prop :=
  ∀ i ∈ f.phis w.block, (p.fused f).choice? w'.source? i = (f.choice? w.source? i).map p.renamed ∧
    ∀ d, f.choice? w.source? i = some (.inst d) → K d

/-- Control comes to the same block along the edge that is in the place of the old one. -/
structure Lands (p : FusionPlan) (f : Func) (w' w : Visit) : Prop where
  block : w'.block = w.block
  source : w'.source? = w.source?.map (p.relabel w.block) ∨ f.phis w.block = []

/-- Control comes to a block of both functions and finds there in both what the block reads. -/
structure Mirrors (p : FusionPlan) (f : Func) (args : List Int) (K : InstId → Prop)
    (w' w : Visit) : Prop where
  enough : p.Suffices f K w.block
  block : w'.block = w.block
  sees : p.Sees K w'.store w.store
  enters : p.Enters f K w' w
  touched : ∀ i a, f.Touches args w i a → w'.store.mem a = w.store.mem a

theorem Suffices.ne_second (hp : p.Fits f e) (h : p.Suffices f K b) : b ≠ p.second.header :=
  fun he => h.stays (hp.mem_retired.2 (.inr (.inl he)))

theorem address?_fusedOp (p : FusionPlan) (b : BlockId) (op : Operation) :
    (p.fusedOp b op).address? = op.address?.map p.renamed := by
  cases op <;> rfl

theorem fold?_fusedOp (p : FusionPlan) (b : BlockId) (op : Operation) (val : Value → Int) :
    (p.fusedOp b op).fold? val = op.fold? fun v => val (p.renamed v) := by
  cases op <;> rfl

section

variable (hw : f.WellFormed e) (hp : p.Fits f e) (hc : p.Clean f)

include hw hp

theorem phis_eq_fused (b : BlockId) : (p.fused f).phis b = f.phis b := by
  rw [Func.phis, Func.phis, body_fused hw hp, funext (isPhi_fused hw hp)]

theorem writesMemory_fused (hk : p.Suffices f K b) (hi : i ∈ f.body b) :
    (p.fused f).writesMemory i = f.writesMemory i := by
  rw [Func.writesMemory, Func.writesMemory, op?_fused hw hp hk.live (hk.ne_second hp) hi]
  cases f.op? i with
  | none => rfl
  | some op => cases op <;> rfl

include hc

theorem choice?_fused {q : BlockId} (hb : b ∈ f.layout) (hr : b ∉ p.retired) (hq : f.Leads e q)
    (hqb : f.Edge q b) (hi : i ∈ f.phis b) : (p.fused f).choice? (some (p.relabel b q)) i =
      (f.choice? (some q) i).map p.renamed := by
  have hib : i ∈ f.body b := (List.takeWhile_sublist _).mem hi
  have hphi : f.isPhi i := List.mem_takeWhile_imp hi
  have hlatch : b ≠ p.first.latch := by
    rintro rfl
    exact hc.latch i hib hphi
  obtain ⟨op, hop, hphi⟩ := (Option.any_eq_true ..).1 hphi
  cases op with
  | phi incoming =>
    have hne : b ≠ p.second.header := fun h => hr (hp.mem_retired.2 (.inr (.inl h)))
    have hinc : (p.fused f).incoming i =
        incoming.map fun x => (p.relabel b x.1, p.renamed x.2) := by
      rw [Func.incoming, op?_fused hw hp hb hne hib, hop]
      simp [fusedOp, Operation.mapOperands, Operation.mapTargets, Operation.mapIncoming,
        Function.comp_def]
    rw [Func.choice?, Func.choice?, Option.bind_some, Option.bind_some, hinc, Func.incoming, hop]
    obtain ⟨-, hlabels, -⟩ := hw.phis b hb (hq.tail hqb) i hib incoming hop
    exact lookup_map fun c hcm h => relabel_injOn hp hlatch ((hlabels c).1 hcm) hqb h
  | _ => cases hphi

theorem Lands.enters (h : p.Lands f w' w) (hb : w.block ∈ f.layout) (hr : w.block ∉ p.retired)
    (hsource : ∀ q, w.source? = some q → f.Leads e q ∧ f.Edge q w.block)
    (hK : ∀ i ∈ f.phis w.block, ∀ d, f.choice? w.source? i = some (.inst d) → K d) :
    p.Enters f K w' w := by
  intro i hi
  refine ⟨?_, hK i hi⟩
  rcases h.source with hs | hs
  · rw [hs]
    cases hq : w.source? with
    | none => rfl
    | some q => exact choice?_fused hw hp hc hb hr (hsource q hq).1 (hsource q hq).2 hi
  · rw [hs] at hi
    cases hi

theorem heir_of_mem (hb : b ∈ f.layout) (hne : b ≠ p.second.header) (hi : i ∈ f.body b) :
    p.heir i = i := by
  refine heir_of_ne ?_
  rintro rfl
  exact hne (hw.block_unique hp.second.exit_edge.1 hb hc.mem_body_second hi)

/-- A value in `K` is kept under the name of one that the block computes only if it is that one. -/
theorem Suffices.eq_of_heir (hk : p.Suffices f K b) (hd : K d) (hi : p.heir d ∈ f.body b) :
    p.heir d = d := by
  by_cases hs : d = p.second.iv
  · subst hs
    refine absurd ?_ (hk.counter hd)
    have hf : p.heir p.second.iv = p.first.iv := if_pos rfl
    exact hw.block_unique hp.first.exit_edge.1 hk.live hc.mem_body_first (hf ▸ hi)
  · exact heir_of_ne hs

variable (hk : p.Suffices f K w.block)

include hk

omit hp hc in
theorem Sees.set (hp : p.Fits f e) (hc : p.Clean f) (h : p.Sees K s' s) (hi : i ∈ f.body w.block)
    (x : Int) : p.Sees K (s'.set i x) (s.set i x) := by
  intro d hd
  change Function.update s'.env i x (p.heir d) = Function.update s.env i x d
  by_cases hdi : d = i
  · subst hdi
    rw [heir_of_mem hw hp hc hk.live (hk.ne_second hp) hi, Function.update_self,
      Function.update_self]
  · have hne : p.heir d ≠ i := by
      intro he
      exact hdi ((hk.eq_of_heir hw hp hc hd (he ▸ hi)).symm.trans he)
    rw [Function.update_of_ne hne, Function.update_of_ne hdi]
    exact h d hd

theorem sees_exec (h : p.Sees K s' s) (hi : i ∈ f.body w.block)
    (hmem : ∀ op addr, f.op? i = some op → op.address? = some addr →
      s'.mem (addr.eval args s.env) = s.mem (addr.eval args s.env)) :
    p.Sees K ((p.fused f).exec args s' i) (f.exec args s i) ∧
      ∀ a, s'.mem a = s.mem a → ((p.fused f).exec args s' i).mem a = (f.exec args s i).mem a := by
  obtain ⟨op, hop⟩ := hw.known _ hk.live i hi
  have hop' : (p.fused f).op? i = some (p.fusedOp w.block op) := by
    rw [op?_fused hw hp hk.live (hk.ne_second hp) hi, hop, Option.map_some]
  have hval : ¬ op.isPhi → ∀ v ∈ op.operands,
      (p.renamed v).eval args s'.env = v.eval args s.env := fun hphi v hv =>
    h.eval fun d hd => hk.operands i hi op hop hphi d (hd ▸ hv)
  -- an operation that looks at nothing but its operands makes the same of them
  have hfold : ∀ x, op.fold? (Value.eval args s.env) = some x → ¬ op.isPhi →
      p.Sees K ((p.fused f).exec args s' i) (f.exec args s i) ∧
        ∀ a, s'.mem a = s.mem a →
          ((p.fused f).exec args s' i).mem a = (f.exec args s i).mem a := by
    intro x hx hphi
    have hx' : (p.fusedOp w.block op).fold? (Value.eval args s'.env) = some x := by
      rw [fold?_fusedOp, ← hx]
      exact Operation.fold?_congr (hval hphi)
    rw [Func.exec_of_fold? hop hx, Func.exec_of_fold? hop' hx']
    exact ⟨h.set hw hk hp hc hi x, fun a ha => ha⟩
  cases op with
  | phi incoming =>
    have hphi : f.isPhi i := by rw [Func.isPhi, hop]; rfl
    rw [Func.exec_phi hphi, Func.exec_phi ((isPhi_fused hw hp i).trans hphi)]
    exact ⟨h, fun a ha => ha⟩
  | binary | compare | gep => exact hfold _ rfl Bool.false_ne_true
  | load addr =>
    have haddr := hval Bool.false_ne_true addr (by simp [Operation.operands])
    rw [Func.exec_load hop, Func.exec_load (a := p.renamed addr) hop', haddr, hmem _ addr hop rfl]
    exact ⟨h.set hw hk hp hc hi _, fun a ha => ha⟩
  | store addr x =>
    have haddr := hval Bool.false_ne_true addr (by simp [Operation.operands])
    have hx := hval Bool.false_ne_true x (by simp [Operation.operands])
    rw [Func.exec_store hop, Func.exec_store (a := p.renamed addr) (v := p.renamed x) hop', haddr, hx]
    refine ⟨h, fun a ha => ?_⟩
    change Function.update s'.mem _ _ a = Function.update s.mem _ _ a
    rw [Function.update_apply, Function.update_apply, ha]
  | _ =>
    have hterm : f.isTerminator i := by rw [Func.isTerminator, hop]; rfl
    rw [Func.exec_terminator hterm,
      Func.exec_terminator ((isTerminator_fused hw hp i).trans hterm)]
    exact ⟨h, fun a ha => ha⟩

end

namespace Mirrors

variable (hw : f.WellFormed e) (hp : p.Fits f e) (hc : p.Clean f) (h : p.Mirrors f args K w' w)

include hw hp hc h

theorem sees_enter : p.Sees K ((p.fused f).enter args w') (f.enter args w) := by
  have hk := h.enough
  intro d hd
  simp only [Func.enter, phis_eq_fused hw hp, h.block]
  have hsub : ∀ j ∈ f.phis w.block, j ∈ f.body w.block := fun j hj =>
    (List.takeWhile_sublist _).mem hj
  by_cases hdp : d ∈ f.phis w.block
  · obtain ⟨hchoice, hK⟩ := h.enters d hdp
    have hh := heir_of_mem hw hp hc hk.live (hk.ne_second hp) (hsub d hdp)
    rw [hh, if_pos hdp, if_pos hdp, hchoice]
    cases hv : f.choice? w.source? d with
    | none =>
      have hd := h.sees d hd
      rwa [hh] at hd
    | some v => exact h.sees.eval fun j hj => hK j (hj ▸ hv)
  · have hnot : p.heir d ∉ f.phis w.block := fun hm =>
      hdp (hk.eq_of_heir hw hp hc hd (hsub _ hm) ▸ hm)
    rw [if_neg hdp, if_neg hnot]
    exact h.sees d hd

/-- What holds after each of the instructions of the block. -/
theorem upTo : ∀ pre post, f.body w.block = pre ++ post →
    p.Sees K ((p.fused f).upTo args w' pre) (f.upTo args w pre) ∧
      ∀ a, w'.store.mem a = w.store.mem a →
        ((p.fused f).upTo args w' pre).mem a = (f.upTo args w pre).mem a := by
  refine prefix_induction ⟨h.sees_enter hw hp hc, fun a ha => ha⟩ ?_
  rintro pre i post hbody ⟨ih, ihm⟩
  rw [Func.upTo_snoc, Func.upTo_snoc]
  have hi : i ∈ f.body w.block := by simp [hbody]
  have haddr : ∀ op addr, f.op? i = some op → op.address? = some addr →
      ((p.fused f).upTo args w' pre).mem (addr.eval args (f.upTo args w pre).env) =
        (f.upTo args w pre).mem (addr.eval args (f.upTo args w pre).env) := fun op addr hop ha =>
    ihm _ (h.touched i _ (Func.touches_of_body h.enough.live hbody hop ha))
  obtain ⟨hsees, hkeep⟩ := sees_exec hw hp hc h.enough ih hi haddr
  exact ⟨hsees, fun a ha => hkeep a (ihm a ha)⟩

theorem sees_leave : p.Sees K ((p.fused f).leave args w') (f.leave args w) := by
  rw [Func.leave, Func.leave, body_fused hw hp, h.block]
  exact (h.upTo hw hp hc _ [] (List.append_nil _).symm).1

theorem mem_leave (ha : w'.store.mem a = w.store.mem a) :
    ((p.fused f).leave args w').mem a = (f.leave args w).mem a := by
  rw [Func.leave, Func.leave, body_fused hw hp, h.block]
  exact (h.upTo hw hp hc _ [] (List.append_nil _).symm).2 a ha

omit hc in
theorem live : w'.block ∈ (p.fused f).layout := by
  rw [h.block]
  exact (mem_layout_fused hw hp).2 ⟨h.enough.live, h.enough.stays⟩

theorem writes_of_fused (ha : (p.fused f).Writes args w' a) : f.Writes args w a := by
  have hk := h.enough
  obtain ⟨i, hi, hl, pre, post, op', addr', hbody, hop', haddr', heval⟩ := ha
  rw [body_fused hw hp, h.block] at hbody
  have hib : i ∈ f.body w.block := by simp [hbody]
  rw [writesMemory_fused hw hp hk hib] at hi
  rw [op?_fused hw hp hk.live (hk.ne_second hp) hib] at hop'
  obtain ⟨op, hop, rfl⟩ := Option.map_eq_some_iff.1 hop'
  rw [address?_fusedOp] at haddr'
  obtain ⟨addr, haddr, rfl⟩ := Option.map_eq_some_iff.1 haddr'
  refine ⟨i, hi, hk.live, pre, post, op, addr, hbody, hop, haddr, ?_⟩
  rw [← heval]
  refine ((h.upTo hw hp hc _ _ hbody).1.eval fun d hd => ?_).symm
  refine hk.operands i hib op hop ?_ d ?_ <;> subst hd <;> cases op <;> cases haddr <;>
    simp [Operation.isPhi, Operation.operands]

theorem mem_leave_of_not_writes (ha : ¬ f.Writes args w a) :
    ((p.fused f).leave args w').mem a = w'.store.mem a :=
  Func.leave_mem_of_not_writes (h.live hw hp) fun hwr => ha (h.writes_of_fused hw hp hc hwr)

omit hc in
theorem env_leave_of_not_mem (hd : d ∉ f.body w.block) :
    ((p.fused f).leave args w').env d = w'.store.env d := by
  refine Func.leave_env_of_not_mem ?_
  rwa [body_fused hw hp, h.block]

theorem eval_exit {x : Value} (hop : f.exitOp? w.block = some op) (hx : x ∈ op.operands) :
    (p.renamed x).eval args ((p.fused f).leave args w').env = x.eval args (f.leave args w).env := by
  obtain ⟨i, hi, hopi, ht⟩ := Func.exitOp?_eq_some hop
  refine (h.sees_leave hw hp hc).eval fun d hd => ?_
  exact h.enough.operands i (List.mem_of_getLast? hi) op hopi
    (Operation.not_isPhi_of_isTerminator ht) d (hd ▸ hx)

theorem next? (hn : f.next? args w = some v) : (p.fused f).next? args w' =
    some ⟨some w.block, p.retarget w.block v.block, (p.fused f).leave args w'⟩ := by
  obtain ⟨-, ⟨op, hop, ht⟩, -, -⟩ := Func.next?_eq_some.1 hn
  refine Func.next?_eq_some.2 ⟨h.live hw hp, ⟨p.fusedOp w.block op, ?_, ?_⟩, by rw [h.block], rfl⟩
  · rw [h.block, exitOp?_fused hw hp h.enough.live (h.enough.ne_second hp), hop, Option.map_some]
  · have heval := fun x => h.eval_exit (x := x) hw hp hc hop
    cases op with
    | br t =>
      obtain rfl := Option.some.inj ht
      rfl
    | condBr c t t' =>
      have hcond := heval c (List.mem_singleton_self c)
      change some (if (p.renamed c).eval args _ ≠ 0 then _ else _) = some (p.retarget _ v.block)
      rw [hcond, ← Option.some.inj ht, apply_ite (p.retarget w.block)]
    | _ => cases ht

theorem result? {x : Option Int} {m : Memory} (hr : f.result? args w = some (x, m)) :
    (p.fused f).result? args w' = some (x, ((p.fused f).leave args w').mem) := by
  rw [Func.result?, if_pos h.enough.live] at hr
  rw [Func.result?, if_pos (h.live hw hp), h.block,
    exitOp?_fused hw hp h.enough.live (h.enough.ne_second hp)]
  split at hr
  case h_2 => cases hr
  case h_1 y hop =>
    have heval := fun x => h.eval_exit (x := x) hw hp hc hop
    rw [hop, Option.map_some, ← (Prod.mk.inj (Option.some.inj hr)).1]
    change some (((y.map p.renamed).map _), _) = _
    cases y with
    | none => rfl
    | some y =>
      rw [Option.map_some, Option.map_some, heval y (List.mem_singleton_self y)]
      rfl

end Mirrors

end LoopFusion.FusionPlan
