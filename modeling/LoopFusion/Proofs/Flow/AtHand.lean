import LoopFusion.Proofs.Flow.Recognized

/-!
A program whose operands are at hand where they are used writes a function that the verifier
accepts.
-/

namespace LoopFusion

open Build Relation LoopFusion.Flow

namespace Func

/-- The value is there when control comes to instruction `n`, which stands in block `b`. -/
def AtHand (f : Func) (e b : BlockId) (n : Nat) : Value → Prop
  | .const _ => True
  | .param k => k < f.params.length
  | .inst d => d.index < n ∧ f.hasResult d ∧ ∃ db, f.owner? d = some db ∧ Dom f.Edge e db b

/-- What the instruction reads is at hand. -/
structure Served (f : Func) (e : BlockId) (i : InstId) : Prop where
  uses : ∀ b op, f.owner? i = some b → f.op? i = some op → ¬ op.isPhi →
    ∀ v ∈ op.operands, f.AtHand e b i.index v
  phi : ∀ b incoming, f.owner? i = some b → f.op? i = some (.phi incoming) →
    (incoming.map (·.1)).Nodup ∧ (∀ p, p ∈ incoming.map (·.1) ↔ f.Edge p b) ∧
      ∀ p v, (p, v) ∈ incoming → f.AtHand e p f.insts.size v

variable {f : Func} {e b c : BlockId} {m n : Nat} {v : Value} {i : InstId} {op : Operation}

theorem AtHand.mono (h : f.AtHand e b m v) (hn : m ≤ n)
    (hd : ∀ a, Dom f.Edge e a b → Dom f.Edge e a c) : f.AtHand e c n v := by
  cases v with
  | inst d =>
    obtain ⟨hlt, hres, db, howner, hdom⟩ := h
    exact ⟨hlt.trans_le hn, hres, db, howner, hd db hdom⟩
  | _ => exact h

theorem served_of (howner : f.owner? i = some b) (hop : f.op? i = some op) (hphi : ¬ op.isPhi)
    (h : ∀ v ∈ op.operands, f.AtHand e b i.index v) : f.Served e i where
  uses c op' hc hop' _ := by
    obtain rfl := Option.some.inj (howner.symm.trans hc)
    obtain rfl := Option.some.inj (hop.symm.trans hop')
    exact h
  phi c incoming _ hop' := by
    obtain rfl := Option.some.inj (hop.symm.trans hop')
    exact absurd rfl hphi

theorem served_of_br {t : BlockId} (hop : f.op? i = some (.br t)) : f.Served e i where
  uses b op _ hop' _ := by
    obtain rfl := Option.some.inj (hop.symm.trans hop')
    exact fun v hv => absurd hv List.not_mem_nil
  phi b incoming _ hop' := by cases Option.some.inj (hop.symm.trans hop')

end Func

/-- From what is written up to `t` to the whole function: blocks grow, the instructions that were
added since `s` stay. -/
structure Builder.Leaves (s t : Builder) (f : Func) : Prop where
  orderly : f.Orderly
  grows : ∀ b, t.func.body b ⊆ f.body b
  op? : ∀ i, s.func.insts.size ≤ i.index → i.index < t.func.insts.size → f.op? i = t.func.op? i
  params : t.func.params.length ≤ f.params.length

namespace Builder.Leaves

variable {s s' t : Builder} {f : Func} {b : BlockId} {i : InstId}

theorem later (h : s.Leaves t f) (hs : s.Onward s') : s'.Leaves t f where
  orderly := h.orderly
  grows := h.grows
  op? i hle := h.op? i (hs.count.trans hle)
  params := h.params

theorem before (h : s.Leaves t f) (ht : s'.Onward t) : s.Leaves s' f where
  orderly := h.orderly
  grows b := List.Subset.trans (ht.grows b) (h.grows b)
  op? i hle hlt := (h.op? i hle (hlt.trans_le ht.count)).trans (ht.op? i hlt)
  params := ht.params.trans h.params

theorem owner? (h : s.Leaves t f) (hi : i ∈ t.func.body b) : f.owner? i = some b :=
  (h.orderly.owned b i).1 (h.grows b hi)

/-- The body of a loop stays, too: closing the loop changes what stood before it was opened. -/
theorem inside {s₁ s₂ s₃ : Builder} {l : OpenLoop} {m : CountedLoop} {start bound : Value}
    {step : Int64} (h : s.Leaves s₃ f) (ho : Opens s start bound step l s₁)
    (hc : Closes s₂ l m s₃) : s₁.Leaves s₂ f where
  orderly := h.orderly
  grows b := List.Subset.trans (hc.grows b) (h.grows b)
  op? i hle hlt := by
    have hcount₁ := ho.count
    have hcount₃ := hc.count
    have hiv : i ≠ l.iv := by
      rw [ho.iv]
      rintro rfl
      simp only at hle
      omega
    rw [h.op? i (by omega) (by omega), hc.op?_of_lt hlt hiv]
  params := by rw [← hc.params]; exact h.params

end Builder.Leaves

namespace Writes

variable {a : Option CountedLoop} {scope : List Value} {s s₁ s₂ s₃ t : Builder}
  {cs all : List Call} {answer : Option Value} {f : Func} {last : BlockId} {l : OpenLoop}
  {m : CountedLoop} {start bound : Value} {step : Int64} {v : Value}

theorem atHand_of_inScope {e b : BlockId} {n : Nat} (h : InScope scope v)
    (hscope : ∀ v ∈ scope, f.AtHand e b n v) : f.AtHand e b n v := by
  rcases h with ⟨c, rfl⟩ | h
  · trivial
  · exact hscope v h

section

variable (hs : s.func.Orderly) (ho : Opens s start bound step l s₁) (hb : s₁.Onward s₂)
  (hc : Closes s₂ l m s₃) (hl : s.Leaves s₃ f)

include hs ho hb hc hl

theorem header_values :
    (f.op? ⟨s.func.insts.size + 1⟩ =
        some (.phi [(m.preheader, start), (m.latch, m.next)]) ∧
      f.owner? ⟨s.func.insts.size + 1⟩ = some m.header) ∧
    f.op? ⟨s.func.insts.size + 2⟩ =
        some (.compare (continueTest step) (.inst ⟨s.func.insts.size + 1⟩) bound) ∧
      f.owner? ⟨s.func.insts.size + 2⟩ = some m.header := by
  have hcount₁ := ho.count
  have hcount₂ := hb.count
  have hcount₃ := hc.count
  obtain ⟨hbody, hphi, hcmp⟩ := header_waits ho hb hs
  have howner : ∀ i ∈ s₂.func.body l.header, f.owner? i = some m.header := by
    intro i hi
    rw [hc.result]
    exact hl.owner? (hc.grows _ hi)
  have hop : ∀ j, j ≤ 2 → f.op? ⟨s.func.insts.size + j⟩ =
      s₃.func.op? ⟨s.func.insts.size + j⟩ :=
    fun j hj => hl.op? _ (Nat.le_add_right _ _) (by simp only; omega)
  refine ⟨⟨?_, howner _ (by simp [hbody, ho.iv])⟩, ?_, howner _ (by simp [hbody])⟩
  · rw [hop 1 (by omega), ← ho.iv, hc.op?_iv (ho.iv_lt hb), hphi, hc.result, ho.preheader]
    rfl
  · rw [hop 2 (by omega), hc.op?_of_lt (by simp only; omega) (by rw [ho.iv]; simp), hcmp, ho.iv]

omit hs

theorem latch_values :
    (f.op? ⟨s₂.func.insts.size + 1⟩ =
        some (.binary .add (.inst ⟨s.func.insts.size + 1⟩) (.const step)) ∧
      f.owner? ⟨s₂.func.insts.size + 1⟩ = some m.latch) ∧
    f.op? ⟨s₂.func.insts.size + 3⟩ =
        some (.condBr (.inst ⟨s.func.insts.size + 2⟩) m.body m.exit) ∧
      f.owner? ⟨s₂.func.insts.size + 3⟩ = some m.header := by
  have hcount₁ := ho.count
  have hcount₂ := hb.count
  have hcount₃ := hc.count
  have hop : ∀ j, j ≤ 3 → f.op? ⟨s₂.func.insts.size + j⟩ =
      s₃.func.op? ⟨s₂.func.insts.size + j⟩ :=
    fun j hj => hl.op? _ (by simp only; omega) (by simp only; omega)
  refine ⟨⟨?_, hl.owner? ?_⟩, ?_, hl.owner? ?_⟩
  · rw [hop 1 (by omega), hc.op?_next (ho.iv_lt hb), ho.iv, ho.by']
  · rw [hc.body_latch (ho.header_lt hb)]
    simp
  · rw [hop 3 (by omega), hc.op?_branch, ho.cond, hc.result]
  · rw [hc.result, hc.body_header]
    simp

theorem jump_values :
    f.op? ⟨s.func.insts.size⟩ = some (.br m.header) ∧
      f.op? ⟨s₂.func.insts.size⟩ = some (.br m.latch) ∧
        f.op? ⟨s₂.func.insts.size + 2⟩ = some (.br m.header) := by
  have hcount₁ := ho.count
  have hcount₂ := hb.count
  have hcount₃ := hc.count
  have hiv := ho.iv_lt hb
  have hop : ∀ i : InstId, s.func.insts.size ≤ i.index → i.index < s₃.func.insts.size →
      f.op? i = s₃.func.op? i := hl.op?
  refine ⟨?_, ?_, ?_⟩
  · rw [hop ⟨s.func.insts.size⟩ (Nat.le_refl _) (by simp only; omega),
      hc.op?_of_lt (by simp only; omega) (by rw [ho.iv]; simp),
      hb.op? ⟨s.func.insts.size⟩ (by simp only; omega), ho.op?_enter, hc.result]
  · rw [hop ⟨s₂.func.insts.size⟩ (by simp only; omega) (by simp only; omega), hc.op?_jump hiv]
  · rw [hop ⟨s₂.func.insts.size + 2⟩ (by simp only; omega) (by simp only; omega), hc.op?_back hiv,
      hc.result]

end

/-- The header is entered from the preheader and from the latch, and from nowhere else. -/
theorem served_phi (hbt : f.Built all last) (hmem : ⟨m, start, bound, step, a⟩ ∈ all) {i : InstId}
    (hop : f.op? i = some (.phi [(m.preheader, start), (m.latch, m.next)]))
    (howner : f.owner? i = some m.header)
    (hstart : f.AtHand ⟨0⟩ m.preheader f.insts.size start)
    (hnext : f.AtHand ⟨0⟩ m.latch f.insts.size m.next) : f.Served ⟨0⟩ i where
  uses b op _ hop' hnot := by
    obtain rfl := Option.some.inj (hop.symm.trans hop')
    exact absurd rfl hnot
  phi b incoming howner' hop' := by
    obtain rfl := Option.some.inj (howner.symm.trans howner')
    obtain rfl := Operation.phi.inj (Option.some.inj (hop.symm.trans hop'))
    have hord := hbt.ordered _ hmem
    have hne : m.preheader ≠ m.latch := by
      obtain ⟨_, _, _, _, _⟩ := hord
      rw [ne_eq, ← BlockId.index_inj]
      simp only at *
      omega
    refine ⟨by simpa using hne, fun p => ?_, fun p v hpv => ?_⟩
    · simp only [List.map_cons, List.map_nil, List.mem_cons, List.not_mem_nil, or_false]
      rw [hbt.edge_iff]
      constructor
      · rintro (rfl | rfl)
        · exact ⟨_, hmem, .enter⟩
        · exact ⟨_, hmem, .back⟩
      · rintro ⟨d, hd, harc⟩
        exact (hbt.related hmem hd).arc_header hord (hbt.ordered d hd) harc
    · simp only [List.mem_cons, Prod.mk.injEq, List.not_mem_nil, or_false] at hpv
      rcases hpv with ⟨rfl, rfl⟩ | ⟨rfl, rfl⟩
      · exact hstart
      · exact hnext

theorem served_loop (hbt : f.Built all last) (hmem : ⟨m, start, bound, step, a⟩ ∈ all)
    (hs : s.func.Orderly) (ho : Opens s start bound step l s₁) (hb : s₁.Onward s₂)
    (hc : Closes s₂ l m s₃) (hl : s.Leaves s₃ f)
    (hstart : f.AtHand ⟨0⟩ m.preheader s.func.insts.size start)
    (hbound : f.AtHand ⟨0⟩ m.header (s.func.insts.size + 2) bound) {i : InstId}
    (hi : s.func.insts.size ≤ i.index ∧ i.index < s₁.func.insts.size ∨
      s₂.func.insts.size ≤ i.index ∧ i.index < s₃.func.insts.size) : f.Served ⟨0⟩ i := by
  have hcount₁ := ho.count
  have hcount₂ := hb.count
  have hcount₃ := hc.count
  obtain ⟨⟨hphi, hphi'⟩, hcmp, hcmp'⟩ := header_values hs ho hb hc hl
  obtain ⟨⟨hadd, hadd'⟩, hbr, hbr'⟩ := latch_values ho hb hc hl
  obtain ⟨hinto, hrepeat, hback⟩ := jump_values ho hb hc hl
  have hself : Dom f.Edge ⟨0⟩ m.header m.header :=
    .of_reach (hbt.headed_iff.2 ⟨_, hmem, rfl⟩).reach
  have hlatch := hbt.header_dom_latch hmem
  have hiv : ∀ {b n}, s.func.insts.size + 1 < n → Dom f.Edge ⟨0⟩ m.header b →
      f.AtHand ⟨0⟩ b n (.inst ⟨s.func.insts.size + 1⟩) := fun hn hd =>
    ⟨hn, by rw [Func.hasResult_of_op? hphi]; rfl, _, hphi', hd⟩
  have hcases : i.index = s.func.insts.size ∨ i.index = s.func.insts.size + 1 ∨
      i.index = s.func.insts.size + 2 ∨ i.index = s₂.func.insts.size ∨
      i.index = s₂.func.insts.size + 1 ∨ i.index = s₂.func.insts.size + 2 ∨
      i.index = s₂.func.insts.size + 3 := by omega
  simp only [← InstId.eq_mk] at hcases
  rcases hcases with rfl | rfl | rfl | rfl | rfl | rfl | rfl
  · exact Func.served_of_br hinto
  · have hlt : s₂.func.insts.size + 1 < f.insts.size :=
      hl.orderly.lt_of_mem ((hl.orderly.owned _ _).2 hadd')
    refine served_phi hbt hmem hphi hphi' (hstart.mono (by omega) fun _ h => h) ?_
    rw [show m.next = .inst ⟨s₂.func.insts.size + 1⟩ by rw [hc.result]]
    exact ⟨hlt, by rw [Func.hasResult_of_op? hadd]; rfl, _, hadd', .of_reach hlatch.1⟩
  · refine Func.served_of hcmp' hcmp (by simp [Operation.isPhi]) fun v hv => ?_
    simp only [Operation.operands, List.mem_cons, List.not_mem_nil, or_false] at hv
    rcases hv with rfl | rfl
    · exact hiv (Nat.lt_succ_self _) hself
    · exact hbound
  · exact Func.served_of_br hrepeat
  · refine Func.served_of hadd' hadd (by simp [Operation.isPhi]) fun v hv => ?_
    simp only [Operation.operands, List.mem_cons, List.not_mem_nil, or_false] at hv
    rcases hv with rfl | rfl
    · exact hiv (by simp only; omega) hlatch
    · trivial
  · exact Func.served_of_br hback
  · refine Func.served_of hbr' hbr (by simp [Operation.isPhi]) fun v hv => ?_
    obtain rfl := List.mem_singleton.1 hv
    exact ⟨by simp only; omega, by rw [Func.hasResult_of_op? hcmp]; rfl, _, hcmp', hself⟩

/-- The variable and the test of a closed loop are at hand from its header on, with all that was at
hand before it. -/
theorem atHand_header (hbt : f.Built all last) (hmem : ⟨m, start, bound, step, a⟩ ∈ all)
    (hs : s.func.Orderly) (ho : Opens s start bound step l s₁) (hb : s₁.Onward s₂)
    (hc : Closes s₂ l m s₃) (hl : s.Leaves s₃ f)
    (hscope : ∀ v ∈ scope, f.AtHand ⟨0⟩ s.current s.func.insts.size v) :
    (∀ v ∈ .inst l.iv :: scope, f.AtHand ⟨0⟩ m.header (s.func.insts.size + 2) v) ∧
      f.AtHand ⟨0⟩ m.header s₁.func.insts.size l.cond := by
  obtain ⟨⟨hphi, hphi'⟩, hcmp, hcmp'⟩ := header_values hs ho hb hc hl
  have hself : Dom f.Edge ⟨0⟩ m.header m.header :=
    .of_reach (hbt.headed_iff.2 ⟨_, hmem, rfl⟩).reach
  have hpre : m.preheader = s.current := by rw [hc.result, ho.preheader]
  have hcount₁ := ho.count
  refine ⟨List.forall_mem_cons.2 ⟨?_, fun v hv => ?_⟩, ?_⟩
  · rw [ho.iv]
    exact ⟨Nat.lt_succ_self _, by rw [Func.hasResult_of_op? hphi]; rfl, _, hphi', hself⟩
  · refine (hscope v hv).mono (Nat.le_add_right _ _) fun z hz => ?_
    exact hbt.dom_header hmem (hpre ▸ hz)
  · rw [ho.cond]
    exact ⟨by simp only; omega, by rw [Func.hasResult_of_op? hcmp]; rfl, _, hcmp', hself⟩

theorem served_inst {op : Operation} {s' : Builder} (hbt : f.Built all last) (plain : op.Plain)
    (hops : ∀ v ∈ op.operands, InScope scope v) (ha : Adds s op s') (ht : s'.Onward t)
    (hl : s.Leaves t f) (hscope : ∀ v ∈ scope, f.AtHand ⟨0⟩ s.current s.func.insts.size v) :
    f.Served ⟨0⟩ ⟨s.func.insts.size⟩ ∧
      ∀ v ∈ if op.hasResult then .inst ⟨s.func.insts.size⟩ :: scope else scope,
        f.AtHand ⟨0⟩ s'.current s'.func.insts.size v := by
  have hcount := ha.count
  have hlt : s.func.insts.size < s'.func.insts.size := by omega
  have hop : f.op? ⟨s.func.insts.size⟩ = some op := by
    rw [hl.op? ⟨s.func.insts.size⟩ (Nat.le_refl _) (hlt.trans_le ht.count),
      ht.op? ⟨s.func.insts.size⟩ hlt, ha.op?, if_pos rfl]
  have hin : (⟨s.func.insts.size⟩ : InstId) ∈ f.body s.current := by
    refine hl.grows _ (ht.grows _ ?_)
    rw [ha.body, if_pos rfl]
    simp
  have howner := (hl.orderly.owned _ _).1 hin
  refine ⟨Func.served_of howner hop plain.1 fun v hv => atHand_of_inScope (hops v hv) hscope, ?_⟩
  have hold : ∀ v ∈ scope, f.AtHand ⟨0⟩ s'.current s'.func.insts.size v := by
    rw [ha.current]
    exact fun v hv => (hscope v hv).mono hlt.le fun _ h => h
  split
  case isTrue hres =>
    refine List.forall_mem_cons.2 ⟨⟨hlt, by rw [Func.hasResult_of_op? hop, hres], _, howner, ?_⟩,
      hold⟩
    rw [ha.current]
    refine .of_reach (hbt.staged.leads (hbt.mem_layout.2 ?_))
    by_contra hout
    rw [Func.body_eq_nil (by omega)] at hin
    cases hin
  case isFalse => exact hold

/-- All that is written reads what is at hand. -/
theorem served (h : Writes True a scope s cs answer t) (hbt : f.Built all last)
    (hcs : ∀ c ∈ cs, c ∈ all) (hr : s.Ready) (hs : s.func.Orderly) (hl : s.Leaves t f)
    (hscope : ∀ v ∈ scope, f.AtHand ⟨0⟩ s.current s.func.insts.size v) :
    (∀ i, s.func.insts.size ≤ i.index → i.index < t.func.insts.size → f.Served ⟨0⟩ i) ∧
      ∀ v ∈ answer, f.AtHand ⟨0⟩ t.current t.func.insts.size v := by
  induction h with
  | done hv =>
    refine ⟨fun i hle hlt => absurd hlt (by omega), fun v hmem => ?_⟩
    exact atHand_of_inScope (hv trivial v hmem) hscope
  | @idle a scope scope' s s' cs answer t hi hnew rest ih =>
    have hs' := hi.onward hr
    have hon := rest.onward hs'.ready
    rw [← hi.count]
    refine ih hcs hs'.ready (hi.orderly hs) (hl.later hs') fun v hv => ?_
    rcases hnew v hv with hv | ⟨k, rfl, hk⟩
    · rw [hi.current, hi.count]
      exact hscope v hv
    · exact hk.trans_le (hon.params.trans hl.params)
  | @inst a scope s s' op cs answer t plain hops ha rest ih =>
    have hs' := ha.onward hr
    have hon := rest.onward hs'.ready
    obtain ⟨hown, hscope'⟩ := served_inst hbt plain (hops trivial) ha hon hl hscope
    obtain ⟨hrest, hanswer⟩ := ih hcs hs'.ready (ha.orderly hs) (hl.later hs') hscope'
    refine ⟨fun i hle hlt => ?_, hanswer⟩
    by_cases he : i.index = s.func.insts.size
    · rwa [InstId.eq_mk.2 he]
    · exact hrest i (by rw [ha.count]; omega) hlt
  | @loop a scope s s₁ s₂ s₃ t start bound step l m inner after answer' answer
      _ hstart hbound ho body hc rest ihb ihr =>
    have hb := body.onward ho.ready
    have hs₁ := ho.orderly hs
    have hs₃ := hc.orderly (hb.orderly hs₁)
    have hl₃ := hl.before (rest.onward hc.ready)
    have hmem := hcs _ (List.mem_cons_self ..)
    obtain ⟨hhead, hcond⟩ := atHand_header hbt hmem hs ho hb hc hl₃ hscope
    have hpre : m.preheader = s.current := by rw [hc.result, ho.preheader]
    have hcount₁ := ho.count
    have hcount₂ := hb.count
    have hcount₃ := hc.count
    have hscope₁ : ∀ v ∈ l.cond :: .inst l.iv :: scope,
        f.AtHand ⟨0⟩ m.header s₁.func.insts.size v :=
      List.forall_mem_cons.2 ⟨hcond, fun v hv => (hhead v hv).mono (by omega) fun _ h => h⟩
    obtain ⟨hbody, -⟩ := ihb (fun c hc => hcs c (by simp [hc])) ho.ready hs₁ (hl₃.inside ho hc)
      fun v hv => (hscope₁ v hv).mono (Nat.le_refl _) fun z hz => by
        have : m.body = s₁.current := by rw [hc.result, ho.bodyHead, ho.current]
        exact this ▸ hz.trans (hbt.header_dom_body hmem)
    obtain ⟨hafter, hanswer⟩ := ihr (fun c hc => hcs c (by simp [hc])) hc.ready hs₃
      (hl.later (loop_onward ho hb hc))
      fun v hv => (hscope₁ v hv).mono (by omega) fun z hz => by
        have : m.exit = s₃.current := by rw [hc.result, hc.current]
        exact this ▸ hz.trans (hbt.header_dom_exit hmem)
    have hown := fun i => served_loop hbt hmem hs ho hb hc hl₃
      (hpre ▸ atHand_of_inScope (hstart trivial) hscope)
      (atHand_of_inScope (hbound trivial) hhead) (i := i)
    refine ⟨fun i hle hlt => ?_, hanswer⟩
    by_cases h₁ : i.index < s₁.func.insts.size
    · exact hown i (.inl ⟨hle, h₁⟩)
    by_cases h₂ : i.index < s₂.func.insts.size
    · exact hbody i (by omega) h₂
    by_cases h₃ : i.index < s₃.func.insts.size
    · exact hown i (.inr ⟨by omega, h₃⟩)
    · exact hafter i (by omega) hlt

end Writes

end LoopFusion
