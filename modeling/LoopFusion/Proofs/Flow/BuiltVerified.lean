import LoopFusion.Proofs.Flow.AtHand

/-!
What a program of counted loops writes: the loops that it asks for, and, if its operands are at hand
where they are used, a function that the verifier accepts.
-/

namespace LoopFusion

open Build Relation LoopFusion.Flow

namespace Func

/-- Every one of the instructions is of the kind `P`. -/
def AllOps (f : Func) (P : Operation → Prop) (is : List InstId) : Prop :=
  ∀ i ∈ is, ∃ op, f.op? i = some op ∧ P op

/-- Phis, then plain instructions, then a terminator. -/
def Finished (f : Func) (b : BlockId) : Prop := ∃ phis is t, f.body b = phis ++ is ++ [t] ∧
  f.AllOps (·.isPhi) phis ∧ f.AllOps (·.Plain) is ∧ f.AllOps (·.isTerminator) [t]

variable {f f' : Func} {b : BlockId} {i t : InstId} {is js : List InstId} {op : Operation}
  {P : Operation → Prop}

theorem AllOps.congr (h : f.AllOps P is) (hop : ∀ i ∈ is, f'.op? i = f.op? i) :
    f'.AllOps P is := by
  intro i hi
  rw [hop i hi]
  exact h i hi

theorem allOps_nil : f.AllOps P [] := by simp [AllOps]

theorem allOps_append : f.AllOps P (is ++ js) ↔ f.AllOps P is ∧ f.AllOps P js :=
  List.forall_mem_append

theorem allOps_singleton (hop : f.op? i = some op) (hP : P op) : f.AllOps P [i] :=
  List.forall_mem_singleton.2 ⟨op, hop, hP⟩

theorem Finished.kept (h : f.Finished b) (hk : f.Kept f' b) : f'.Finished b := by
  obtain ⟨phis, is, t, hbody, hphis, his, ht⟩ := h
  have hop := hk.op?
  rw [hbody] at hop
  exact ⟨phis, is, t, hk.body.trans hbody, hphis.congr fun i hi => hop i (by simp [hi]),
    his.congr fun i hi => hop i (by simp [hi]), ht.congr fun i hi => hop i (by simp_all)⟩

theorem Finished.of_straight (h : f.AllOps (·.Plain) (f.body b))
    (hbody : f'.body b = f.body b ++ [t]) (hops : ∀ i ∈ f.body b, f'.op? i = f.op? i)
    (hop : f'.op? t = some op) (hterm : op.isTerminator) : f'.Finished b :=
  ⟨[], f.body b, t, hbody, allOps_nil, h.congr hops, allOps_singleton hop hterm⟩

theorem Finished.shaped (h : f.Finished b) : f.Shaped (f.body b) := by
  obtain ⟨phis, is, t, hbody, hphis, his, ht⟩ := h
  have hphi : ∀ i ∈ phis, f.isPhi i ∧ ¬ f.isTerminator i := by
    intro i hi
    obtain ⟨op, hop, h⟩ := hphis i hi
    rw [isPhi_of_op? hop, isTerminator_of_op? hop]
    cases op <;> simp_all [Operation.isPhi, Operation.isTerminator]
  have hplain : ∀ i ∈ is, ¬ f.isPhi i ∧ ¬ f.isTerminator i := by
    intro i hi
    obtain ⟨op, hop, h⟩ := his i hi
    rwa [isPhi_of_op? hop, isTerminator_of_op? hop]
  obtain ⟨op, hop, hterm⟩ := ht t (List.mem_singleton_self t)
  refine ⟨phis ++ is, t, hbody, by rwa [isTerminator_of_op? hop], fun i hi => ?_, ?_⟩
  · exact (List.mem_append.1 hi).elim (fun h => (hphi i h).2) fun h => (hplain i h).2
  · rw [List.dropWhile_append_of_pos fun i hi => (hphi i hi).1]
    exact fun i hi => (hplain i ((List.dropWhile_sublist _).mem hi)).1

end Func

namespace Func

variable {f : Func} {e b p db : BlockId} {i d : InstId} {n k : Nat} {v : Value} {op : Operation}

theorem Finished.known (h : f.Finished b) (hi : i ∈ f.body b) : ∃ op, f.op? i = some op := by
  obtain ⟨phis, is, t, hbody, hphis, his, ht⟩ := h
  rw [hbody, List.mem_append, List.mem_append] at hi
  rcases hi with (hi | hi) | hi
  · exact (hphis i hi).imp fun _ => And.left
  · exact (his i hi).imp fun _ => And.left
  · exact (ht i hi).imp fun _ => And.left

theorem Finished.exitOp?_eq (h : f.Finished b) (hi : i ∈ f.body b) (hop : f.op? i = some op)
    (hterm : op.isTerminator) : f.exitOp? b = some op := by
  obtain ⟨inner, t, hbody, -, hinner, -⟩ := h.shaped
  have hi' : f.isTerminator i := by rwa [isTerminator_of_op? hop]
  rw [hbody, List.mem_append] at hi
  have hit : i = t := (hi.resolve_left fun hm => hinner i hm hi') |> List.mem_singleton.1
  exact exitOp?_of_getLast? (by rw [hbody, List.getLast?_concat]) (hit ▸ hop) hterm

theorem Orderly.mem_layout (h : f.Orderly) (hi : i ∈ f.body b) : b ∈ f.layout := by
  rw [h.layout, mem_arena]
  by_contra hout
  rw [body_eq_nil (by omega)] at hi
  cases hi

theorem Orderly.placeOf? (h : f.Orderly) (howner : f.owner? d = some db) :
    ∃ dk, f.placeOf? d = some (db, dk) := by
  have hd := (h.owned db d).2 howner
  obtain ⟨dk, hk⟩ := Option.isSome_iff_exists.1 (List.isSome_idxOf?.2 hd)
  exact ⟨dk, placeOf?_eq_some.2 ⟨howner, h.mem_layout hd, hk⟩⟩

theorem AtHand.usable (h : f.AtHand e b n v) (ho : f.Orderly) : f.Usable v := by
  cases v with
  | const => trivial
  | param => exact h
  | inst d =>
    obtain ⟨-, hres, db, howner, -⟩ := h
    obtain ⟨dk, hdk⟩ := ho.placeOf? howner
    exact ⟨by rw [hdk]; rfl, hres⟩

theorem AtHand.availableAfter (h : f.AtHand e p n v) (ho : f.Orderly) :
    f.AvailableAfter e p v := by
  cases v with
  | inst d =>
    obtain ⟨-, -, db, howner, hdom⟩ := h
    obtain ⟨dk, hdk⟩ := ho.placeOf? howner
    exact ⟨db, dk, hdk, fun _ => hdom⟩
  | _ => trivial

theorem AtHand.availableAt (h : f.AtHand e b i.index v) (ho : f.Orderly)
    (hk : (f.body b)[k]? = some i) : f.AvailableAt e b k v := by
  cases v with
  | inst d =>
    obtain ⟨hlt, -, db, howner, hdom⟩ := h
    obtain ⟨dk, hdk⟩ := ho.placeOf? howner
    refine ⟨db, dk, hdk, ?_⟩
    split
    case isFalse => exact fun _ => hdom
    case isTrue he =>
      subst he
      obtain ⟨-, -, hidx⟩ := placeOf?_eq_some.1 hdk
      obtain ⟨hdk', hget, -⟩ := List.idxOf?_eq_some_iff.1 hidx
      obtain ⟨hk', hget'⟩ := List.getElem?_eq_some_iff.1 hk
      by_contra hle
      rcases Nat.lt_or_eq_of_le (Nat.le_of_not_lt hle) with hlt' | rfl
      · have := List.pairwise_iff_getElem.1 (ho.sorted db) k dk hk' hdk' hlt'
        rw [hget, hget'] at this
        omega
      · rw [hget.symm.trans hget'] at hlt
        exact Nat.lt_irrefl _ hlt
  | _ => trivial

end Func

theorem Func.Built.wellFormed {f : Func} {cs : List Call} {last : BlockId} (hb : f.Built cs last)
    (hfinished : ∀ b ∈ f.layout, f.Finished b)
    (hserved : ∀ b, ∀ i ∈ f.body b, f.Served ⟨0⟩ i) : f.WellFormed ⟨0⟩ where
  entry := hb.entry
  bounded b := hb.mem_layout.1
  live b h := hb.orderly.live b (hb.mem_layout.1 h)
  nodup := by
    rw [hb.orderly.layout]
    exact List.nodup_range.map fun m n h => BlockId.mk.inj h
  known b h i hi := (hfinished b h).known hi
  references b h i hi op hop t ht := by
    have howner := (hb.orderly.owned b i).1 hi
    have hedge : ∀ x y, f.Edge x y → x.index < f.blocks.size ∧ y.index < f.blocks.size :=
      fun x y hxy => ⟨hb.mem_layout.1 hxy.1, hb.mem_layout.1 (hb.staged.closed x y hxy)⟩
    have htargets : t ∈ op.targets → t.index < f.blocks.size := fun ht => by
      have hterm : op.isTerminator := by cases op <;> first | rfl | cases ht
      exact (hedge b t ((Func.edge_iff h ((hfinished b h).exitOp?_eq hi hop hterm)).2 ht)).2
    cases op with
    | phi incoming => exact (hedge t b (((hserved b i hi).phi b incoming howner hop).2.1 t |>.1 ht)).1
    | _ => exact htargets ht
  shape b h := (hfinished b h).shaped
  targets a b hab := hb.orderly.live b (hb.mem_layout.1 (hb.staged.closed a b hab))
  owner b _ i := (hb.orderly.owned b i).1
  nodupBody b _ := (hb.orderly.sorted b).imp fun h he => Nat.ne_of_lt h (congrArg _ he)
  unentered a ha := by
    obtain ⟨c, hc, harc⟩ := hb.edge_iff.1 ha
    obtain ⟨h₁, h₂, h₃, h₄, h₅⟩ := hb.ordered c hc
    generalize hx : (⟨0⟩ : BlockId) = x at harc
    have := BlockId.index_inj.2 hx
    cases harc <;> simp only at this <;> omega
  phis b _ _ i hi incoming hop := by
    obtain ⟨hnodup, hpreds, hvals⟩ :=
      (hserved b i hi).phi b incoming ((hb.orderly.owned b i).1 hi) hop
    exact ⟨hnodup, hpreds, fun p v hpv =>
      ⟨(hvals p v hpv).usable hb.orderly, (hvals p v hpv).availableAfter hb.orderly⟩⟩
  uses b _ k i hk op hop hphi v hv := by
    have hi := List.mem_of_getElem? hk
    have := (hserved b i hi).uses b op ((hb.orderly.owned b i).1 hi) hop hphi v hv
    exact ⟨this.usable hb.orderly, this.availableAt hb.orderly hk⟩

theorem Call.In.finished_header {c : Call} {f : Func} (h : c.In f) : f.Finished c.made.header := by
  obtain ⟨iv, cond, br, -, hbody, hphi, hcmp, hbr⟩ := h.header
  exact ⟨[iv], [cond], br, hbody, Func.allOps_singleton hphi rfl,
    Func.allOps_singleton hcmp (.of rfl rfl),
    Func.allOps_singleton hbr rfl⟩

theorem Call.In.finished_latch {c : Call} {f : Func} (h : c.In f) : f.Finished c.made.latch := by
  obtain ⟨next, br, -, hbody, hadd, hbr⟩ := h.latch
  exact ⟨[], [next], br, hbody, Func.allOps_nil,
    Func.allOps_singleton hadd (.of rfl rfl),
    Func.allOps_singleton hbr rfl⟩

theorem Build.Opens.body_current {s s₁ : Builder} {l : OpenLoop} {start bound : Value}
    {step : Int64} (h : Opens s start bound step l s₁) (hs : s.Ready) :
    s₁.func.body s₁.current = [] := by
  have hne : ⟨s.func.blocks.size + 1⟩ ≠ s.current := (BlockId.ne_mk (Nat.lt_succ_of_lt hs)).symm
  rw [h.current, h.body, if_neg (by simp), if_neg hne, Func.body_eq_nil (Nat.le_succ _)]

theorem Build.Closes.body_current {s s' : Builder} {l : OpenLoop} {m : CountedLoop}
    (h : Closes s l m s') (hs : s.Ready) (hh : l.header.index < s.func.blocks.size) :
    s'.func.body s'.current = [] := by
  have hnew : ∀ {b : BlockId}, b.index < s.func.blocks.size → ⟨s.func.blocks.size + 1⟩ ≠ b :=
    fun hb => (BlockId.ne_mk (Nat.lt_succ_of_lt hb)).symm
  rw [h.current, h.body, if_neg (hnew hh), if_neg (by simp), if_neg (hnew hs),
    Func.body_eq_nil (Nat.le_succ _)]

namespace Writes

variable {ok : Prop} {a : Option CountedLoop} {scope : List Value} {s s₁ s₂ s₃ t : Builder}
  {cs : List Call} {answer : Option Value} {l : OpenLoop} {m : CountedLoop} {start bound : Value}
  {step : Int64} {b : BlockId}

theorem finished_loop (moves : step ≠ 0) (hr : s.Ready) (hs : s.func.Orderly)
    (hstraight : s.func.AllOps (·.Plain) (s.func.body s.current))
    (ho : Opens s start bound step l s₁) (hb : s₁.Onward s₂) (hc : Closes s₂ l m s₃)
    (htail : s₂.func.AllOps (·.Plain) (s₂.func.body s₂.current))
    (hbody : ∀ b, (b = s₁.current ∨ s₁.func.blocks.size ≤ b.index) →
      b.index < s₂.func.blocks.size → b ≠ s₂.current → s₂.func.Finished b)
    (hnew : b = s.current ∨ s.func.blocks.size ≤ b.index) (hlt : b.index < s₃.func.blocks.size)
    (hne : b ≠ s₃.current) : s₃.func.Finished b := by
  have hs₂ := hb.orderly (ho.orderly hs)
  have hiv := iv_mem_header ho hb hs
  have hin : Call.In ⟨m, start, bound, step, none⟩ s₃.func := in_loop moves hr hs ho hb hc
  rcases hnew with rfl | hnew
  · refine Func.Finished.kept ?_ (kept_preheader hr hs ho hb hc)
    exact .of_straight hstraight (ho.body_preheader hr)
      (fun i hi => ho.op?_of_lt (hs.lt_of_mem hi)) ho.op?_enter rfl
  rcases new_block ho hc hnew with rfl | ⟨hin', hlt'⟩ | rfl | rfl | hout
  · exact hin.finished_header
  · by_cases hcur : b = s₂.current
    · subst hcur
      have hne := (ho.header_ne_current hb).symm
      exact .of_straight htail (hc.body_tail hb.ready hne)
        (fun i hi => hc.op?_of_mem hs₂ hiv hi hne) (hc.op?_jump (ho.iv_lt hb)) rfl
    · refine (hbody b hin' hlt' hcur).kept (hc.kept hs₂ hiv hlt' hcur ?_)
      have hsize₁ := ho.size
      rw [ho.current] at hin'
      rw [ho.header]
      simp only [ne_eq, BlockId.eq_mk] at hin' ⊢
      omega
  · exact hin.finished_latch
  · exact absurd rfl hne
  · omega

/-- Every block that has been left is finished, and the current one is straight. -/
theorem finished (h : Writes ok a scope s cs answer t) (hr : s.Ready) (hs : s.func.Orderly)
    (hstraight : s.func.AllOps (·.Plain) (s.func.body s.current)) :
    t.func.AllOps (·.Plain) (t.func.body t.current) ∧
      ∀ b, (b = s.current ∨ s.func.blocks.size ≤ b.index) → b.index < t.func.blocks.size →
        b ≠ t.current → t.func.Finished b := by
  induction h with
  | done =>
    refine ⟨hstraight, fun b hb hlt hne => ?_⟩
    rcases hb with rfl | hb
    · exact absurd rfl hne
    · omega
  | idle hi _ _ ih =>
    rw [← hi.current, ← hi.size]
    refine ih (hi.onward hr).ready (hi.orderly hs) ?_
    rw [hi.body, hi.current]
    exact hstraight.congr fun i _ => hi.op? i
  | @inst a scope s s' op cs answer t plain hops ha rest ih =>
    rw [← ha.current, ← ha.size]
    have hon := ha.onward hr
    refine ih hon.ready (ha.orderly hs) ?_
    rw [ha.body, if_pos ha.current, ha.current]
    exact Func.allOps_append.2 ⟨hstraight.congr fun i hi => hon.op? i (hs.lt_of_mem hi),
      Func.allOps_singleton ((ha.op? _).trans (if_pos rfl)) plain⟩
  | @loop a scope s s₁ s₂ s₃ t start bound step l m inner after answer' answer
      moves _ _ ho body hc rest ihb ihr =>
    have hb := body.onward ho.ready
    have hon := rest.onward hc.ready
    have hs₁ := ho.orderly hs
    have hs₂ := hb.orderly hs₁
    have hs₃ := hc.orderly hs₂
    obtain ⟨htail, hbody⟩ := ihb ho.ready hs₁ (ho.body_current hr ▸ Func.allOps_nil)
    obtain ⟨hlast, hafter⟩ := ihr hc.ready hs₃
      (hc.body_current hb.ready (ho.header_lt hb) ▸ Func.allOps_nil)
    refine ⟨hlast, fun b hnew hlt hne => ?_⟩
    by_cases hin : b.index < s₃.func.blocks.size ∧ b ≠ s₃.current
    · exact (finished_loop moves hr hs hstraight ho hb hc htail hbody hnew hin.1 hin.2).kept
        (hon.kept hs₃ hin.1 hin.2)
    · refine hafter b ?_ hlt hne
      by_contra hout
      exact hin ⟨by omega, fun he => hout (.inl he)⟩

end Writes

namespace Program

variable (name : String) (p : Program)

theorem leaves : (Builder.start name).Leaves (p.written name) (p.func name) := by
  have ht := (p.returns name).onward (p.onward name).ready
  exact ⟨(p.built name).orderly, ht.grows, fun i _ => ht.op? i, ht.params⟩

theorem finished : ∀ b ∈ (p.func name).layout, (p.func name).Finished b := by
  have hs := p.onward name
  have hos := hs.orderly (start_orderly name)
  have hret := p.returns name
  have ht := hret.onward hs.ready
  obtain ⟨hlast, hall⟩ := (p.writes_start name False.elim).finished (start_ready name)
    (start_orderly name) Func.allOps_nil
  intro b hb
  have hlt : b.index < (p.written name).func.blocks.size :=
    ((p.built name).mem_layout.1 hb).trans_eq hret.size
  by_cases he : b = (p.written name).current
  · subst he
    refine .of_straight hlast ((hret.body _).trans (if_pos rfl))
      (fun i hi => ht.op? i (hos.lt_of_mem hi)) ((hret.op? _).trans (if_pos rfl)) rfl
  · refine (hall b ?_ hlt he).kept (ht.kept hos hlt he)
    rw [BlockId.eq_mk]
    exact (Nat.eq_zero_or_pos _).imp_right id

theorem served (h : p.Scoped [] (.start name)) :
    ∀ b, ∀ i ∈ (p.func name).body b, (p.func name).Served ⟨0⟩ i := by
  have hret := p.returns name
  have hbt := p.built name
  obtain ⟨hall, hanswer⟩ := (p.writes_start name fun _ => h).served hbt (fun _ h => h)
    (start_ready name) (start_orderly name) (p.leaves name) (by simp)
  intro b i hi
  have hlt := hbt.orderly.lt_of_mem hi
  rw [hret.count] at hlt
  by_cases he : i.index = (p.written name).func.insts.size
  · obtain rfl := InstId.eq_mk.2 he
    have hin : (⟨(p.written name).func.insts.size⟩ : InstId) ∈
        (p.func name).body (p.written name).current := by
      rw [(hret.body _).trans (if_pos rfl)]
      simp
    refine Func.served_of ((hbt.orderly.owned _ _).1 hin) ((hret.op? _).trans (if_pos rfl))
      (by simp [Operation.isPhi]) fun v hv => ?_
    exact hanswer v (by simpa [Operation.operands] using hv)
  · exact hall i (Nat.zero_le _) (by omega)

/-- The loops of a program are found as they were asked for, one for each call, and a program whose
operands are at hand writes a function that the verifier accepts. -/
theorem loops_as_built (name : String) (p : Program) :
    (∃ ls, ls.Perm (p.func name).forest.loops ∧
      List.Forall₂ (fun c l => c.Recognized (p.func name) l) (p.calls none (.start name)) ls) ∧
    (p.Scoped [] (.start name) → (p.func name).verify = .ok ()) :=
  ⟨(p.built name).exists_recognized, fun h =>
    ((p.built name).wellFormed (p.finished name) (p.served name h)).verify⟩

/-- Three rows of four, and a second loop that starts at the variable the first one leaves. -/
def rows : Program :=
  .param "A" .ptr fun a =>
  .loop "i" (.const 0) (.const 3) 1 (by decide)
    (fun i => .loop "j" (.const 0) (.const 4) 1 (by decide)
      (fun j => .inst (.gep a j) (.of rfl rfl) fun at' =>
        .inst (.store at' i) (.of rfl rfl) fun _ => .done none)
      fun _ => .done none)
    fun c => .loop "k" c.iv (.const 9) 2 (by decide)
      (fun k => .inst (.store a k) (.of rfl rfl) fun _ => .done none)
      fun d => .done (some d.iv)

theorem rows_scoped : rows.Scoped [] (.start "rows") := by
  refine scoped_param fun a _ => scoped_loop (.inl ⟨_, rfl⟩) (.inl ⟨_, rfl⟩) (fun i _ _ => ?_)
    fun c _ _ => ?_
  · refine scoped_loop (.inl ⟨_, rfl⟩) (.inl ⟨_, rfl⟩) (fun j _ _ => ?_) fun _ _ _ => by
      simp [Scoped]
    refine scoped_inst (by simp [Operation.operands, InScope]) fun _ _ =>
      scoped_inst (by simp [Operation.operands, InScope, Operation.hasResult,
        Operation.writesMemory, Operation.isTerminator]) fun _ _ => ?_
    simp [Scoped]
  · refine scoped_loop (.inr (by simp)) (.inl ⟨_, rfl⟩) (fun k _ _ => ?_) fun d _ _ => ?_
    · refine scoped_inst (by simp [Operation.operands, InScope]) fun _ _ => ?_
      simp [Scoped]
    · simp [Scoped, InScope]

theorem rows_as_built : rows.Scoped [] (.start "rows") ∧ (rows.func "rows").verify = .ok () ∧
    ∃ ls, ls.Perm (rows.func "rows").forest.loops ∧
      List.Forall₂ (fun c l => c.Recognized (rows.func "rows") l)
        (rows.calls none (.start "rows")) ls :=
  ⟨rows_scoped, (loops_as_built "rows" rows).2 rows_scoped, (loops_as_built "rows" rows).1⟩

end Program

end LoopFusion
