import LoopFusion.Proofs.Guarded.Checks

/-!
The verifier comes to its verdict without a read or write outside its tables. The checks of handles
and shapes make room for the graph and its dominators, and the positions filed on the way are where
the operands are looked up.
-/

namespace LoopFusion.Guarded

open Func.Verify (demand layoutFrom)

variable {f : Func} {b : BlockId} {i : InstId} {v : Value} {ps : Positions}
  {done : List BlockId} {k : Nat}

/-- The positions of the instructions with their owners, as far as `met` says. -/
def Filed (f : Func) (met : BlockId → Nat → Prop) (ps : Positions) : Prop :=
  ∀ i c j, ps.lookup i = some (c, j) ↔ f.owner? i = some c ∧ (f.body c)[j]? = some i ∧ met c j

/-- The blocks of `done`, and what is in front of `k` in `b`. -/
abbrev UpTo (done : List BlockId) (b : BlockId) (k : Nat) (c : BlockId) (j : Nat) : Prop :=
  c ∈ done ∨ c = b ∧ j < k

namespace Filed

theorem congr {met met' : BlockId → Nat → Prop} (hp : Filed f met ps)
    (h : ∀ c j, j < (f.body c).length → (met c j ↔ met' c j)) : Filed f met' ps := by
  intro i c j
  rw [hp i c j]
  refine and_congr_right fun _ => and_congr_right fun hj => ?_
  exact h c j (List.getElem?_eq_some_iff.1 hj).1

section

variable (hp : Filed f (UpTo done b k) ps) (hb : b ∉ done) (ho : f.owner? i = some b)

include hp hb ho

theorem lookup_eq_some {c : BlockId} {j : Nat} :
    ps.lookup i = some (c, j) ↔ c = b ∧ j < k ∧ (f.body b)[j]? = some i := by
  rw [hp i c j, ho, Option.some.injEq]
  constructor
  · rintro ⟨rfl, hget, hj | hj⟩
    · exact absurd hj hb
    · exact ⟨rfl, hj.2, hget⟩
  · rintro ⟨rfl, hj, hget⟩
    exact ⟨rfl, hget, .inr ⟨rfl, hj⟩⟩

theorem isNone_lookup : (ps.lookup i).isNone = !((f.body b).take k).contains i := by
  rw [Bool.eq_iff_iff, Option.isNone_iff_eq_none, Bool.not_eq_true', List.contains_eq_mem,
    decide_eq_false_iff_not, List.mem_iff_getElem?]
  simp only [List.getElem?_take, Option.ite_none_right_eq_some]
  constructor
  · rintro hnone ⟨j, hj⟩
    rw [(lookup_eq_some hp hb ho).2 ⟨rfl, hj⟩] at hnone
    cases hnone
  · intro hnot
    refine Option.eq_none_iff_forall_ne_some.2 fun ⟨c, j⟩ hx => ?_
    obtain ⟨-, hj⟩ := (lookup_eq_some hp hb ho).1 hx
    exact hnot ⟨j, hj⟩

theorem cons (hk : (f.body b)[k]? = some i) (hfresh : (ps.lookup i).isNone) :
    Filed f (UpTo done b (k + 1)) ((i, b, k) :: ps) := by
  intro i' c j
  rw [List.lookup_cons]
  by_cases hi : i' = i
  · subst i'
    simp only [beq_self_eq_true, ho, Option.some.injEq, Prod.mk.injEq]
    constructor
    · rintro ⟨rfl, rfl⟩
      exact ⟨rfl, hk, .inr ⟨rfl, Nat.lt_succ_self k⟩⟩
    · rintro ⟨rfl, hj, hc | hlt⟩
      · exact absurd hc hb
      · refine ⟨rfl, ?_⟩
        by_contra hne
        have hold := (lookup_eq_some hp hb ho).2 ⟨rfl, by omega, hj⟩
        rw [hold] at hfresh
        cases hfresh
  · have hne : (i' == i) = false := by simpa using hi
    rw [hne, hp i' c j]
    refine and_congr_right fun _ => and_congr_right fun hj => or_congr_right ?_
    refine and_congr_right fun hc => ?_
    subst c
    have hjk : j ≠ k := by
      rintro rfl
      exact hi (Option.some.inj (hj.symm.trans hk))
    omega

end

end Filed

theorem place_follows (h : Slotted f) (hb : b ∈ f.layout) (hdone : b ∉ done)
    {is : List InstId} (his : (f.body b).drop k = is) (hp : Filed f (UpTo done b k) ps) :
    Follows ((is.zipIdx k).foldlM (place f b) ps) ((is.zipIdx k).forM (Func.Verify.placement f b))
      (Filed f fun c _ => c ∈ done ++ [b]) := by
  induction is generalizing k ps with
  | nil =>
    rw [List.drop_eq_nil_iff] at his
    refine .done (hp.congr fun c j hj => ?_)
    rw [List.mem_append, List.mem_singleton]
    refine or_congr_right (and_iff_left_of_imp ?_)
    rintro rfl
    omega
  | cons i is ih =>
    obtain ⟨hk, hdrop⟩ := of_drop_eq_cons his
    obtain ⟨inst, hinst⟩ := h.known b hb i (List.mem_of_getElem? hk)
    have howner : f.owner? i = some inst.block := by rw [Func.owner?, hinst, Option.map_some]
    rw [List.zipIdx_cons, List.foldlM_cons]
    change Follows _ (_ >>= fun _ => (is.zipIdx (k + 1)).forM (Func.Verify.placement f b)) _
    refine Follows.bind (Q := Filed f (UpTo done b (k + 1))) ?_ fun ps' _ hp' => ih hdrop hp'
    refine .looked hinst (.demanded ?_ fun ho => ?_)
    · simp [howner]
    · have ho : f.owner? i = some b := of_decide_eq_true ho
      refine .demandedLast (hp.isNone_lookup hdone ho) fun hfresh => .done ?_
      exact hp.cons hdone ho hk (by rwa [hp.isNone_lookup hdone ho])

theorem placeAll_follows (h : Slotted f) {bs : List BlockId} (hbs : ∀ b ∈ bs, b ∈ f.layout)
    (hn : (done ++ bs).Nodup) (hp : Filed f (fun c _ => c ∈ done) ps) :
    Follows (bs.foldlM (placeAll f) ps)
      (bs.forM fun b => do
        Func.Verify.shape f b
        (f.body b).zipIdx.forM (Func.Verify.placement f b))
      (Filed f fun c _ => c ∈ done ++ bs) := by
  induction bs generalizing done ps with
  | nil => exact .done (by rwa [List.append_nil])
  | cons b bs ih =>
    rw [List.forall_mem_cons] at hbs
    have hb : b ∉ done := by
      intro hmem
      exact (List.nodup_append.1 hn).2.2 b hmem b (List.mem_cons_self ..) rfl
    rw [List.append_cons] at hn ⊢
    rw [List.foldlM_cons]
    refine Follows.bind (Q := Filed f fun c _ => c ∈ done ++ [b]) ?_ fun ps' _ hp' =>
      ih hbs.2 hn hp'
    refine (shape_follows h hbs.1).bind fun _ _ _ => ?_
    rw [body_eq (h.arena.layout b hbs.1), pure_bind]
    refine place_follows h hbs.1 hb List.drop_zero (hp.congr fun c j _ => ?_)
    simp

structure Faithful (f : Func) (t : Tables) : Prop where
  graph : t.graph = Cfg.ofFunc f
  reached : ∀ b, reached t.places b = (Cfg.ofFunc f).reachable b
  dominates : ∀ a b,
    dominates t.dom a b = some ((Dominators.ofCfg (Cfg.ofFunc f)).dominates a b)
  lookup : ∀ i, t.positions.lookup i = f.placeOf? i

section Operands

variable {t : Tables} {user : InstId} {name : String → Defect} {ok : Bool}

theorem exists_op_of_usable (hv : f.Usable v) (d : InstId) (hd : v = .inst d) :
    ∃ o, f.op? d = some o := by
  subst hd
  obtain ⟨o, ho, -⟩ := (Option.any_eq_true _ _).1 hv.2
  exact ⟨o, ho⟩

theorem require_follows (hv : f.Usable v) :
    Follows (require f ok b v name) (demand ok b (name (f.valueName v))) fun _ => True := by
  cases ok with
  | true => exact .done trivial
  | false =>
    rw [require, valueName_eq (exists_op_of_usable hv)]
    exact .said _

variable (h : Slotted f) (ht : Faithful f t)

include ht

theorem before_eq (c : BlockId) : before t c b = pure (!(Cfg.ofFunc f).reachable b ||
    (Dominators.ofCfg (Cfg.ofFunc f)).dominates c b) := by
  rw [before, ht.reached, ht.dominates]
  cases (Cfg.ofFunc f).reachable b <;> rfl

theorem available_eq (hv : f.Usable v) : available t b k v = pure
    (Func.Verify.available f (Cfg.ofFunc f) (.ofCfg (Cfg.ofFunc f)) b k v) := by
  cases v with
  | inst d =>
    obtain ⟨⟨db, dk⟩, hplace⟩ := Option.isSome_iff_exists.1 hv.1
    rw [available, Func.Verify.available, ht.lookup, hplace, Option.any_some]
    change (if db = b then _ else before t db b) = _
    rw [before_eq ht]
    dsimp only
    split <;> rfl
  | _ => rfl

theorem availableAfter_eq (hv : f.Usable v) : availableAfter t b v = pure
    (Func.Verify.availableAfter f (Cfg.ofFunc f) (.ofCfg (Cfg.ofFunc f)) b v) := by
  cases v with
  | inst d =>
    obtain ⟨⟨db, dk⟩, hplace⟩ := Option.isSome_iff_exists.1 hv.1
    rw [availableAfter, Func.Verify.availableAfter, ht.lookup, hplace, Option.any_some]
    exact before_eq ht db
  | _ => rfl

include h

theorem operand_follows :
    Follows (operand f t b user v) (Func.Verify.operand f b user v) fun _ => True := by
  cases v with
  | const c => exact .done trivial
  | param k => exact .said _
  | inst d =>
    rw [operand, Func.Verify.operand, ht.lookup]
    refine .demanded rfl fun hsome => ?_
    obtain ⟨⟨db, dk⟩, hplace⟩ := Option.isSome_iff_exists.1 hsome
    obtain ⟨hdb, hd⟩ := Func.mem_of_placeOf? hplace
    obtain ⟨o, ho⟩ := exists_op h hdb hd
    rw [op_eq ho, pure_bind, Func.hasResult_of_op? ho]
    exact .said _

theorem use_follows {check : Checked Bool} (hcheck : f.Usable v → check = pure ok) :
    Follows (do operand f t b user v; require f (← check) b v name)
      (do Func.Verify.operand f b user v; demand ok b (name (f.valueName v))) fun _ => True := by
  refine (operand_follows h ht).bind fun _ hoperand _ => ?_
  have hv := Func.Verify.operand_eq_ok.1 hoperand
  rw [hcheck hv, pure_bind]
  exact require_follows hv

theorem phi_follows (hb : b ∈ f.layout) {incoming : List (BlockId × Value)} :
    Follows (phi f t b i incoming)
      (Func.Verify.phi f (Cfg.ofFunc f) (.ofCfg (Cfg.ofFunc f)) b i incoming) fun _ => True := by
  rw [phi, Func.Verify.phi, ht.reached, ht.graph]
  split
  · obtain ⟨row, hrow, hpreds, -⟩ := h.preds_row (h.arena.layout b hb)
    refine .looked hrow (.demanded (by rw [hpreds]) fun _ => .forM fun x _ => ?_)
    exact use_follows h ht (availableAfter_eq ht)
  · exact .done trivial

theorem inst_follows (hb : b ∈ f.layout) (hi : i ∈ f.body b) :
    Follows (inst f t b (i, k))
      (Func.Verify.inst f (Cfg.ofFunc f) (.ofCfg (Cfg.ofFunc f)) b (i, k)) fun _ => True := by
  obtain ⟨o, ho⟩ := exists_op h hb hi
  rw [inst, Func.Verify.inst, op_eq ho, pure_bind, ho]
  cases o with
  | phi incoming => exact phi_follows h ht hb
  | _ => exact .forM fun v _ => use_follows h ht (available_eq ht)

theorem instAll_follows : Follows (f.layout.forM fun b => do (← body f b).zipIdx.forM (inst f t b))
    (f.layout.forM fun b => (f.body b).zipIdx.forM
      (Func.Verify.inst f (Cfg.ofFunc f) (.ofCfg (Cfg.ofFunc f)) b)) fun _ => True := by
  apply Follows.forM
  intro b hb
  rw [body_eq (h.arena.layout b hb), pure_bind]
  apply Follows.forM
  rintro ⟨i, k⟩ hi
  exact inst_follows h ht hb (List.mem_of_getElem? (List.mem_zipIdx_iff_getElem?.1 hi))

end Operands

theorem handlesAll_follows (hlt : ∀ b ∈ f.layout, b.index < f.blocks.size) :
    Follows (f.layout.forM fun b => do (← body f b).forM (handles f b))
      (f.layout.forM fun b => (f.body b).forM (Func.Verify.handles f b)) fun _ => True := by
  apply Follows.forM
  intro b hb
  rw [body_eq (hlt b hb), pure_bind]
  exact .forM fun i _ => handles_follows

theorem slotted (hlt : ∀ b ∈ f.layout, b.index < f.blocks.size)
    (hhan : (f.layout.forM fun b => (f.body b).forM (Func.Verify.handles f b)) = .ok ()) :
    Slotted f := by
  have hall : ∀ b ∈ f.layout, ∀ i ∈ f.body b, Func.Verify.handles f b i = .ok () := fun b hb =>
    (forM_eq_ok _ _).1 ((forM_eq_ok _ _).1 hhan b hb)
  constructor
  · apply Func.inArena_of_references hlt
    intro b hb i hi op hop
    exact Func.Verify.lt_of_handles (hall b hb i hi) hop
  · intro b hb i hi
    obtain ⟨inst, hinst, -⟩ := Func.Verify.handles_eq_ok.1 (hall b hb i hi)
    exact ⟨inst, hinst⟩

theorem Filed.lookup_eq (hp : Filed f (fun c _ => c ∈ f.layout) ps)
    (hn : ∀ b ∈ f.layout, (f.body b).Nodup) (i : InstId) : ps.lookup i = f.placeOf? i := by
  refine Option.ext fun ⟨c, j⟩ => ?_
  rw [hp i c j, Func.placeOf?_eq_some]
  refine and_congr_right fun _ => ?_
  constructor
  · rintro ⟨hj, hc⟩
    exact ⟨hc, (Flow.idxOf?_eq_some_of_nodup (hn c hc)).2 hj⟩
  · rintro ⟨hc, hj⟩
    exact ⟨(Flow.idxOf?_eq_some_of_nodup (hn c hc)).1 hj, hc⟩

theorem positions_follow (h : Slotted f) (hn : f.layout.Nodup) :
    Follows (f.layout.foldlM (placeAll f) [])
      (f.layout.forM fun b => do
        Func.Verify.shape f b
        (f.body b).zipIdx.forM (Func.Verify.placement f b))
      fun ps => ∀ i, ps.lookup i = f.placeOf? i := by
  have hempty : Filed f (fun c _ => c ∈ ([] : List BlockId)) [] := by
    intro i c j
    simp
  have hplaced := placeAll_follows h (fun _ hb => hb) (by rwa [List.nil_append]) hempty
  rw [List.nil_append] at hplaced
  apply hplaced.mono
  intro ps hok hps
  apply hps.lookup_eq
  intro b hb
  obtain ⟨-, hbody⟩ := seq_eq_ok.1 ((forM_eq_ok _ _).1 hok b hb)
  exact ((Func.Verify.placement_eq_ok _ rfl).1 ((forM_eq_ok _ _).1 hbody)).2

/-- Whatever function is given, all reads and writes are in their tables and all loops end, with
the verdict of the verifier. -/
theorem run_verify (f : Func) : (verify f).run = some f.verify := by
  apply Follows.eq_say (x := verify f)
  rw [verify, Func.verify]
  cases he : f.entry? with
  | none => rfl
  | some e =>
    refine (Follows.said _).bind fun _ hlay _ => ?_
    obtain ⟨hlay, hnodup⟩ := (Func.Verify.layoutFrom_eq_ok _ _).1 hlay
    have hlt : ∀ b ∈ f.layout, b.index < f.blocks.size := fun b hb => (hlay b hb).1
    refine (handlesAll_follows hlt).bind fun _ hhan _ => ?_
    have h := slotted hlt hhan
    refine (positions_follow h hnodup).bind fun ps _ hps => ?_
    obtain ⟨places, hcfg, hplaces⟩ := cfg_eq h
    obtain ⟨row, hrow, hpreds, -⟩ := h.preds_row (hlt e (List.mem_of_head? he))
    obtain ⟨dom, hdom, hdominates⟩ := dominators_eq h
    refine .looked hcfg (.looked hrow (.demanded (by rw [hpreds]) fun _ => .looked hdom ?_))
    exact instAll_follows h ⟨rfl, reached_eq hplaces, hdominates, hps⟩

end LoopFusion.Guarded
