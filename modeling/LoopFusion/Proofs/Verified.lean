import LoopFusion.Ir.Builder
import LoopFusion.WellFormed
import LoopFusion.Proofs.Except
import LoopFusion.Proofs.Flow.Graph

/-!
What the verifier establishes, as a record: a function passes exactly if its blocks have their
shape, every handle names what it should, and every definition dominates its uses.
-/

namespace LoopFusion

open Relation LoopFusion.Flow

namespace Func

variable {f : Func} {e b p : BlockId} {i d : InstId} {k : Nat} {v : Value}

/-- A constant, a parameter of the function or the result of a live instruction. -/
def Usable (f : Func) : Value → Prop
  | .const _ => True
  | .param k => k < f.params.length
  | .inst d => (f.placeOf? d).isSome ∧ f.hasResult d

/-- The value is there whenever control comes to position `k` of `b`. -/
def AvailableAt (f : Func) (e b : BlockId) (k : Nat) : Value → Prop
  | .inst d => ∃ db dk, f.placeOf? d = some (db, dk) ∧
      if db = b then dk < k else f.Leads e b → Dom f.Edge e db b
  | _ => True

/-- The value is there whenever control leaves `p`. -/
def AvailableAfter (f : Func) (e p : BlockId) : Value → Prop
  | .inst d => ∃ db dk, f.placeOf? d = some (db, dk) ∧ (f.Leads e p → Dom f.Edge e db p)
  | _ => True

/-- Phis, then other instructions, then the only terminator. -/
def Shaped (f : Func) (is : List InstId) : Prop :=
  ∃ inner t, is = inner ++ [t] ∧ f.isTerminator t ∧ (∀ i ∈ inner, ¬ f.isTerminator i) ∧
    ∀ i ∈ inner.dropWhile f.isPhi, ¬ f.isPhi i

/-- A function with entry `e` that the verifier accepts. -/
structure WellFormed (f : Func) (e : BlockId) : Prop where
  entry : f.entry? = some e
  bounded : ∀ b ∈ f.layout, b.index < f.blocks.size
  live : ∀ b ∈ f.layout, f.contains b
  nodup : f.layout.Nodup
  known : ∀ b ∈ f.layout, ∀ i ∈ f.body b, ∃ op, f.op? i = some op
  references : ∀ b ∈ f.layout, ∀ i ∈ f.body b, ∀ op, f.op? i = some op →
    ∀ t ∈ Verify.references op, t.index < f.blocks.size
  shape : ∀ b ∈ f.layout, f.Shaped (f.body b)
  targets : ∀ a b, f.Edge a b → f.contains b
  owner : ∀ b ∈ f.layout, ∀ i ∈ f.body b, f.owner? i = some b
  nodupBody : ∀ b ∈ f.layout, (f.body b).Nodup
  unentered : ∀ a, ¬ f.Edge a e
  phis : ∀ b ∈ f.layout, f.Leads e b → ∀ i ∈ f.body b, ∀ incoming,
    f.op? i = some (.phi incoming) →
      (incoming.map (·.1)).Nodup ∧ (∀ p, p ∈ incoming.map (·.1) ↔ f.Edge p b) ∧
        ∀ p v, (p, v) ∈ incoming → f.Usable v ∧ f.AvailableAfter e p v
  uses : ∀ b ∈ f.layout, ∀ k i, (f.body b)[k]? = some i → ∀ op, f.op? i = some op →
    ¬ op.isPhi → ∀ v ∈ op.operands, f.Usable v ∧ f.AvailableAt e b k v

end Func

namespace Func.Verify

variable {f : Func} {b : BlockId} {d : Defect} {ok : Bool}

theorem demand_eq_ok : demand ok b d = .ok () ↔ ok = true := by
  cases ok <;> simp [demand, fail, pure, Except.pure]

theorem layoutFrom_eq_ok (seen l : List BlockId) : layoutFrom f seen l = .ok () ↔
    (∀ b ∈ l, b.index < f.blocks.size ∧ f.contains b ∧ b ∉ seen) ∧ l.Nodup := by
  induction l generalizing seen with
  | nil => simp [layoutFrom, pure, Except.pure]
  | cons b l ih =>
    rw [layoutFrom]
    split
    case isTrue h =>
      constructor
      · intro h'
        cases h'
      · rintro ⟨h', -⟩
        have := (h' b (List.mem_cons_self ..)).1
        omega
    case isFalse h =>
      rw [seq_eq_ok, seq_eq_ok, demand_eq_ok, demand_eq_ok, ih, List.nodup_cons,
        List.forall_mem_cons]
      simp only [List.mem_cons, not_or, Bool.not_eq_true', List.contains_iff_mem,
        Bool.eq_false_iff, ne_eq]
      constructor
      · rintro ⟨hc, hb, hl, hn⟩
        exact ⟨⟨⟨by omega, hc, hb⟩, fun x hx => ⟨(hl x hx).1, (hl x hx).2.1, (hl x hx).2.2.2⟩⟩,
          fun hm => (hl b hm).2.2.1 rfl, hn⟩
      · rintro ⟨⟨⟨-, hc, hb⟩, hl⟩, hm, hn⟩
        exact ⟨hc, hb, fun x hx => ⟨(hl x hx).1, (hl x hx).2.1, fun he => hm (he ▸ hx),
          (hl x hx).2.2⟩, hn⟩

theorem handles_eq_ok {i : InstId} : handles f b i = .ok () ↔
    ∃ inst, f.inst? i = some inst ∧ inst.block.index < f.blocks.size ∧
      ∀ t ∈ references inst.op, t.index < f.blocks.size := by
  rw [handles]
  cases f.inst? i with
  | none => simp [fail]
  | some inst =>
    simp only [Option.some.injEq, exists_eq_left', seq_eq_ok, demand_eq_ok, decide_eq_true_eq]
    refine and_congr_right fun _ => ?_
    cases hfind : (references inst.op).find? fun t => f.blocks.size ≤ t.index with
    | none => simpa [pure, Except.pure] using hfind
    | some t =>
      have ht := List.find?_some hfind
      simp only [fail, reduceCtorEq, decide_eq_true_eq, false_iff] at ht ⊢
      intro h
      have := h t (List.mem_of_find?_eq_some hfind)
      omega

theorem lt_of_handles {i : InstId} {op : Operation} (h : handles f b i = .ok ())
    (hop : f.op? i = some op) : ∀ t ∈ references op, t.index < f.blocks.size := by
  obtain ⟨inst, hinst, -, href⟩ := handles_eq_ok.1 h
  rw [op?, hinst] at hop
  exact Option.some.inj hop ▸ href

theorem inner_eq_ok (past : Bool) (l : List InstId) : inner f b past l = .ok () ↔
    (∀ i ∈ l, ¬ f.isTerminator i) ∧ if past then ∀ i ∈ l, ¬ f.isPhi i
      else ∀ i ∈ l.dropWhile f.isPhi, ¬ f.isPhi i := by
  induction l generalizing past with
  | nil => simp [inner, pure, Except.pure]
  | cons i l ih =>
    rw [inner, seq_eq_ok, seq_eq_ok, demand_eq_ok, demand_eq_ok, ih, List.forall_mem_cons]
    cases past <;> cases hi : f.isPhi i <;> simp [hi, and_assoc]

theorem shape_eq_ok : shape f b = .ok () ↔
    f.Shaped (f.body b) ∧ ∀ t ∈ f.successors b, f.contains t := by
  rw [shape]
  cases h : (f.body b).getLast? with
  | none =>
    rw [List.getLast?_eq_none_iff] at h
    simp [fail, h, Shaped]
  | some t =>
    have hbody : f.body b = (f.body b).dropLast ++ [t] :=
      (List.dropLast_append_getLast? t h).symm
    simp only [seq_eq_ok, demand_eq_ok, inner_eq_ok, Bool.false_eq_true, if_false]
    rw [← and_assoc]
    refine and_congr ?_ ?_
    · constructor
      · rintro ⟨ht, hin, hphi⟩
        exact ⟨_, t, hbody, ht, hin, hphi⟩
      · rintro ⟨is, t', he, ht, hin, hphi⟩
        rw [he, List.getLast?_concat] at h
        obtain rfl := Option.some.inj h
        rw [he, List.dropLast_concat]
        exact ⟨ht, hin, hphi⟩
    · cases hfind : (f.successors b).find? fun t => !f.contains t with
      | none => simpa [pure, Except.pure] using hfind
      | some t =>
        have ht := List.find?_some hfind
        simp only [fail, reduceCtorEq, Bool.not_eq_true', false_iff] at ht ⊢
        intro h
        have := h t (List.mem_of_find?_eq_some hfind)
        simp [ht] at this

theorem operand_eq_ok {user : InstId} {v : Value} :
    operand f b user v = .ok () ↔ f.Usable v := by
  cases v with
  | const => simp [operand, Usable, pure, Except.pure]
  | param k => simp [operand, Usable, demand_eq_ok]
  | inst d => simp [operand, Usable, seq_eq_ok, demand_eq_ok]

theorem placement_eq_ok (is : List InstId) (h : is = f.body b) :
    (∀ x ∈ is.zipIdx, placement f b x = .ok ()) ↔ (∀ i ∈ is, f.owner? i = some b) ∧ is.Nodup := by
  subst is
  simp only [placement, seq_eq_ok, demand_eq_ok, Prod.forall, List.mem_zipIdx_iff_getElem?,
    decide_eq_true_eq, Bool.not_eq_true', List.contains_eq_mem, decide_eq_false_iff_not]
  constructor
  · intro h
    constructor
    · intro i hi
      obtain ⟨k, hk⟩ := List.mem_iff_getElem?.1 hi
      exact (h i k hk).1
    · refine List.nodup_iff_getElem?_ne_getElem?.2 fun j k hjk hk he => ?_
      refine (h _ k (List.getElem?_eq_getElem hk)).2 ?_
      rw [List.getElem?_eq_getElem hk, List.getElem?_eq_some_iff] at he
      obtain ⟨hj, he⟩ := he
      exact List.mem_take_iff_getElem.2 ⟨j, by omega, he⟩
  · rintro ⟨ho, hn⟩ i k hk
    refine ⟨ho i (List.mem_of_getElem? hk), fun hm => ?_⟩
    obtain ⟨j, hj, he⟩ := List.mem_take_iff_getElem.1 hm
    obtain ⟨hk', he'⟩ := List.getElem?_eq_some_iff.1 hk
    have := (List.Nodup.getElem_inj_iff hn).1 (he.trans he'.symm)
    omega

section Dominance

variable {e p : BlockId} {k : Nat} {v : Value} (hf : f.InArena) (he : f.entry? = some e)

include hf he

theorem available_iff :
    available f (Cfg.ofFunc f) (.ofCfg (Cfg.ofFunc f)) b k v ↔ f.AvailableAt e b k v := by
  cases v with
  | inst d =>
    simp only [available, Func.AvailableAt, Option.any_eq_true, Prod.exists]
    refine exists_congr fun db => exists_congr fun dk => and_congr_right fun _ => ?_
    split
    · simp
    · rw [Bool.or_eq_true, Bool.not_eq_true', Bool.eq_false_iff, ne_eq, Cfg.reachable_iff hf he,
        Dominators.dominates_iff hf he, imp_iff_not_or]
  | _ => simp [available, Func.AvailableAt]

theorem availableAfter_iff :
    availableAfter f (Cfg.ofFunc f) (.ofCfg (Cfg.ofFunc f)) p v ↔ f.AvailableAfter e p v := by
  cases v with
  | inst d =>
    simp only [availableAfter, Func.AvailableAfter, Option.any_eq_true, Prod.exists]
    refine exists_congr fun db => exists_congr fun dk => and_congr_right fun _ => ?_
    rw [Bool.or_eq_true, Bool.not_eq_true', Bool.eq_false_iff, ne_eq, Cfg.reachable_iff hf he,
      Dominators.dominates_iff hf he, imp_iff_not_or]
  | _ => simp [availableAfter, Func.AvailableAfter]

theorem phi_eq_ok {i : InstId} {incoming : List (BlockId × Value)} :
    phi f (Cfg.ofFunc f) (.ofCfg (Cfg.ofFunc f)) b i incoming = .ok () ↔
      (f.Leads e b → (incoming.map (·.1)).Nodup ∧ (∀ p, p ∈ incoming.map (·.1) ↔ f.Edge p b) ∧
        ∀ p v, (p, v) ∈ incoming → f.Usable v ∧ f.AvailableAfter e p v) := by
  rw [phi]
  by_cases hb : f.Leads e b
  · rw [if_pos ((Cfg.reachable_iff hf he).2 hb), seq_eq_ok, demand_eq_ok, forM_eq_ok,
      List.isPerm_iff]
    have hperm : (incoming.map (·.1)).Perm ((Cfg.ofFunc f).preds b) ↔
        (incoming.map (·.1)).Nodup ∧ ∀ p, p ∈ incoming.map (·.1) ↔ f.Edge p b := by
      have hn := Cfg.nodup_preds f b
      constructor
      · intro h
        exact ⟨h.nodup_iff.2 hn, fun p => by rw [h.mem_iff, Cfg.mem_preds_iff hf]⟩
      · rintro ⟨hn', h⟩
        exact (List.perm_ext_iff_of_nodup hn' hn).2 fun p => by rw [h, Cfg.mem_preds_iff hf]
    rw [hperm, and_assoc]
    simp only [seq_eq_ok, operand_eq_ok, demand_eq_ok, availableAfter_iff hf he, Prod.forall, hb,
      true_imp_iff]
  · rw [if_neg (by rwa [Cfg.reachable_iff hf he])]
    simp [hb, pure, Except.pure]

theorem inst_eq_ok {i : InstId} :
    inst f (Cfg.ofFunc f) (.ofCfg (Cfg.ofFunc f)) b (i, k) = .ok () ↔
      (∀ incoming, f.op? i = some (.phi incoming) → f.Leads e b →
        (incoming.map (·.1)).Nodup ∧ (∀ p, p ∈ incoming.map (·.1) ↔ f.Edge p b) ∧
          ∀ p v, (p, v) ∈ incoming → f.Usable v ∧ f.AvailableAfter e p v) ∧
      ∀ op, f.op? i = some op → ¬ op.isPhi → ∀ v ∈ op.operands,
        f.Usable v ∧ f.AvailableAt e b k v := by
  rw [inst]
  split
  case h_1 incoming h => simp [h, phi_eq_ok hf he, Operation.isPhi]
  case h_2 op hne h =>
    rw [forM_eq_ok]
    have hphi : ∀ incoming, ¬ some op = some (.phi incoming) :=
      fun incoming he => hne incoming (Option.some.inj he)
    have : op.isPhi = false := by
      cases op <;> first | rfl | exact absurd rfl (hne _)
    simp [h, hphi, this, seq_eq_ok, operand_eq_ok, demand_eq_ok, available_iff hf he]
  case h_3 h => simp [h, pure, Except.pure]

end Dominance

end Func.Verify

namespace Func

open Verify

variable {f : Func} {e : BlockId}

theorem exitOp?_eq_some {b : BlockId} {op : Operation} (h : f.exitOp? b = some op) :
    ∃ t, (f.body b).getLast? = some t ∧ f.op? t = some op ∧ op.isTerminator := by
  obtain ⟨t, ht, hop⟩ := Option.bind_eq_some_iff.1 h
  obtain ⟨hl, ht⟩ := Option.filter_eq_some_iff.1 ht
  refine ⟨t, hl, hop, ?_⟩
  simpa [isTerminator, hop] using ht

theorem mem_successors {a b : BlockId} :
    b ∈ f.successors a ↔ ∃ op, f.exitOp? a = some op ∧ b ∈ op.targets := by
  rw [successors]
  cases f.exitOp? a <;> simp

theorem references_of_terminator {op : Operation} (h : op.isTerminator) :
    references op = op.targets := by
  cases op <;> first | rfl | cases h

theorem inArena_of_references (hlay : ∀ b ∈ f.layout, b.index < f.blocks.size)
    (href : ∀ b ∈ f.layout, ∀ i ∈ f.body b, ∀ op, f.op? i = some op →
      ∀ t ∈ references op, t.index < f.blocks.size) : f.InArena := by
  refine .of_layout hlay fun a ha b hab => ?_
  obtain ⟨op, hop, hb⟩ := mem_successors.1 hab
  obtain ⟨t, ht, hopt, hterm⟩ := exitOp?_eq_some hop
  refine href a ha t (List.mem_of_getLast? ht) op hopt b ?_
  rwa [references_of_terminator hterm]

theorem WellFormed.inArena (h : f.WellFormed e) : f.InArena :=
  inArena_of_references h.bounded h.references

/-- The checks of the verifier one by one. -/
theorem verify_eq_ok_iff_checks : f.verify = .ok () ↔ ∃ e, f.entry? = some e ∧
    layoutFrom f [] f.layout = .ok () ∧
    (∀ b ∈ f.layout, ∀ i ∈ f.body b, handles f b i = .ok ()) ∧
    (∀ b ∈ f.layout, Verify.shape f b = .ok () ∧
      ∀ x ∈ (f.body b).zipIdx, placement f b x = .ok ()) ∧
    (Cfg.ofFunc f).preds e = [] ∧
    ∀ b ∈ f.layout, ∀ x ∈ (f.body b).zipIdx,
      Verify.inst f (Cfg.ofFunc f) (.ofCfg (Cfg.ofFunc f)) b x = .ok () := by
  rw [verify]
  cases f.entry? with
  | none => simp [throw, throwThe, MonadExceptOf.throw]
  | some e =>
    simp only [seq_eq_ok, forM_eq_ok, demand_eq_ok, List.isEmpty_iff, Option.some.injEq,
      exists_eq_left']

theorem wellFormed_of_verify (h : f.verify = .ok ()) : ∃ e, f.WellFormed e := by
  obtain ⟨e, he, hlay, hhan, hshape, hpre, hinst⟩ := verify_eq_ok_iff_checks.1 h
  obtain ⟨hlay, hnd⟩ := (layoutFrom_eq_ok _ _).1 hlay
  have hslot : ∀ b ∈ f.layout, ∀ i ∈ f.body b, ∀ op, f.op? i = some op →
      ∀ t ∈ references op, t.index < f.blocks.size :=
    fun b hb i hi _ hop => lt_of_handles (hhan b hb i hi) hop
  have hf : f.InArena := inArena_of_references (fun b hb => (hlay b hb).1) hslot
  have hplace := fun b hb => (placement_eq_ok (b := b) _ rfl).1 (hshape b hb).2
  have hinst := fun b hb i k (hk : (f.body b)[k]? = some i) =>
    (inst_eq_ok hf he).1 (hinst b hb (i, k) (List.mem_zipIdx_iff_getElem?.2 hk))
  exact ⟨e, {
    entry := he
    bounded := fun b hb => (hlay b hb).1
    live := fun b hb => (hlay b hb).2.1
    nodup := hnd
    known := by
      intro b hb i hi
      obtain ⟨inst, h, -⟩ := handles_eq_ok.1 (hhan b hb i hi)
      exact ⟨inst.op, by rw [op?, h, Option.map_some]⟩
    references := hslot
    shape := fun b hb => (shape_eq_ok.1 (hshape b hb).1).1
    targets := fun a b hab => (shape_eq_ok.1 (hshape a hab.1).1).2 b hab.2
    owner := fun b hb => (hplace b hb).1
    nodupBody := fun b hb => (hplace b hb).2
    unentered := by
      intro a ha
      have := (Cfg.mem_preds_iff hf).2 ha
      rw [hpre] at this
      cases this
    phis := by
      intro b hb hl i hi incoming hop
      obtain ⟨k, hk⟩ := List.mem_iff_getElem?.1 hi
      exact (hinst b hb i k hk).1 incoming hop hl
    uses := fun b hb k i hk op => (hinst b hb i k hk).2 op }⟩

theorem WellFormed.verify (h : f.WellFormed e) : f.verify = .ok () := by
  have hf := h.inArena
  refine verify_eq_ok_iff_checks.2 ⟨e, h.entry, ?_, ?_, ?_, ?_, ?_⟩
  · exact (layoutFrom_eq_ok _ _).2
      ⟨fun b hb => ⟨h.bounded b hb, h.live b hb, List.not_mem_nil⟩, h.nodup⟩
  · intro b hb i hi
    obtain ⟨op, hop⟩ := h.known b hb i hi
    obtain ⟨inst, hinst, rfl⟩ := Option.map_eq_some_iff.1 hop
    have ho := h.owner b hb i hi
    rw [owner?, hinst] at ho
    have ho : inst.block = b := Option.some.inj ho
    exact handles_eq_ok.2 ⟨inst, hinst, ho ▸ h.bounded b hb, h.references b hb i hi _ hop⟩
  · intro b hb
    refine ⟨shape_eq_ok.2 ⟨h.shape b hb, fun t ht => h.targets b t ⟨hb, ht⟩⟩, ?_⟩
    exact (placement_eq_ok _ rfl).2 ⟨h.owner b hb, h.nodupBody b hb⟩
  · refine List.eq_nil_iff_forall_not_mem.2 fun p hp => ?_
    exact h.unentered p ((Cfg.mem_preds_iff hf).1 hp)
  · rintro b hb ⟨i, k⟩ hk
    rw [List.mem_zipIdx_iff_getElem?] at hk
    refine (inst_eq_ok hf h.entry).2 ⟨fun incoming hop hl => ?_, h.uses b hb k i hk⟩
    exact h.phis b hb hl i (List.mem_of_getElem? hk) incoming hop

/-- The verifier accepts exactly the functions of the record. -/
theorem verify_eq_ok : f.verify = .ok () ↔ ∃ e, f.WellFormed e :=
  ⟨wellFormed_of_verify, fun ⟨_, h⟩ => h.verify⟩

/-- Two loops of the same length over two arrays. -/
def twoLoops : Func := .build "f" do
  let a ← Build.param "A" .ptr
  let b ← Build.param "B" .ptr
  discard <| Build.countedLoop "x" (.const 0) (.const 4) 1 fun i => do
    discard <| Build.emit (.store (← Build.value (.gep a i)) (.const 7))
  discard <| Build.countedLoop "y" (.const 0) (.const 4) 1 fun j => do
    discard <| Build.emit (.store (← Build.value (.gep b j)) (.const 8))
  discard <| Build.emit (.ret none)

theorem verify_twoLoops : twoLoops.verify = .ok () := eq_ok_of_isOk (by decide +kernel)

/-! Where values are known. -/

section Values

variable {b d : BlockId} {i : InstId} {v : Value} {k : Nat} {op : Operation}

theorem placeOf?_eq_some {db : BlockId} {dk : Nat} : f.placeOf? i = some (db, dk) ↔
    f.owner? i = some db ∧ db ∈ f.layout ∧ (f.body db).idxOf? i = some dk := by
  simp only [Func.placeOf?, Option.bind_eq_bind, Option.bind_eq_some_iff, Option.pure_def,
    Option.some.injEq, Prod.mk.injEq]
  constructor
  · rintro ⟨c, ho, _, hg, k, hk, rfl, rfl⟩
    exact ⟨ho, by simpa using of_guard hg, hk⟩
  · rintro ⟨ho, hl, hk⟩
    exact ⟨db, ho, (), by simp [guard, hl], dk, hk, rfl, rfl⟩

theorem WellFormed.placeOf?_of_mem (hw : f.WellFormed e) {db : BlockId} (hb : db ∈ f.layout)
    (hi : i ∈ f.body db) : ∃ dk, f.placeOf? i = some (db, dk) := by
  obtain ⟨dk, hk⟩ := Option.isSome_iff_exists.1 (List.isSome_idxOf?.2 hi)
  exact ⟨dk, placeOf?_eq_some.2 ⟨hw.owner db hb i hi, hb, hk⟩⟩

theorem WellFormed.block_unique (hw : f.WellFormed e) (hb : b ∈ f.layout) (hd : d ∈ f.layout)
    (hib : i ∈ f.body b) (hid : i ∈ f.body d) : d = b :=
  Option.some.inj ((hw.owner d hd i hid).symm.trans (hw.owner b hb i hib))

theorem WellFormed.nodup_liveInsts (hw : f.WellFormed e) : f.liveInsts.Nodup :=
  List.nodup_flatMap.2 ⟨hw.nodupBody,
    hw.nodup.imp_of_mem fun ha hb hne _ hia hib => hne (hw.block_unique hb ha hib hia)⟩

theorem mem_of_placeOf? {db : BlockId} {dk : Nat} (h : f.placeOf? i = some (db, dk)) :
    db ∈ f.layout ∧ i ∈ f.body db := by
  obtain ⟨-, hl, hk⟩ := placeOf?_eq_some.1 h
  exact ⟨hl, List.isSome_idxOf?.1 (by rw [hk]; rfl)⟩

/-- Wherever control is in `b`, the value has been computed before or is in `b` itself. -/
def Ahead (f : Func) (e b : BlockId) : Value → Prop
  | .inst i => ∃ d ∈ f.layout, i ∈ f.body d ∧ Dom f.Edge e d b
  | _ => True

theorem Ahead.trans (h : f.Ahead e d v) (hd : Dom f.Edge e d b) : f.Ahead e b v := by
  cases v with
  | inst i =>
    obtain ⟨c, hc, hi, hdom⟩ := h
    exact ⟨c, hc, hi, hdom.trans hd⟩
  | _ => trivial

theorem AvailableAfter.ahead (h : f.AvailableAfter e b v) (hb : f.Leads e b) : f.Ahead e b v := by
  cases v with
  | inst i =>
    obtain ⟨d, dk, hd, hdom⟩ := h
    obtain ⟨hl, hi⟩ := mem_of_placeOf? hd
    exact ⟨d, hl, hi, hdom hb⟩
  | _ => trivial

theorem AvailableAt.ahead (h : f.AvailableAt e b k v) (hb : f.Leads e b) : f.Ahead e b v := by
  cases v with
  | inst i =>
    obtain ⟨d, dk, hd, hcond⟩ := h
    obtain ⟨hl, hi⟩ := mem_of_placeOf? hd
    refine ⟨d, hl, hi, ?_⟩
    split at hcond
    · subst d
      exact .of_reach hb
    · exact hcond hb
  | _ => trivial

theorem WellFormed.ahead (hw : f.WellFormed e) (hb : b ∈ f.layout) (hr : f.Leads e b)
    (hi : i ∈ f.body b) (hop : f.op? i = some op) (hphi : ¬ op.isPhi) (hv : v ∈ op.operands) :
    f.Ahead e b v := by
  obtain ⟨k, hk⟩ := List.mem_iff_getElem?.1 hi
  exact (hw.uses b hb k i hk op hop hphi v hv).2.ahead hr

end Values

end Func

end LoopFusion
