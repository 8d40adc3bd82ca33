import LoopFusion.Proofs.Flow.Arranged

/-!
The code of written loops: what stands in their blocks once they are closed, and stays there.
-/

namespace LoopFusion

open Build

namespace Func

/-- The block holds the same instructions in both functions. -/
structure Kept (f f' : Func) (b : BlockId) : Prop where
  body : f'.body b = f.body b
  op? : ∀ i ∈ f.body b, f'.op? i = f.op? i

variable {f f' f'' : Func} {b : BlockId}

theorem Kept.trans (h : f.Kept f' b) (h' : f'.Kept f'' b) : f.Kept f'' b where
  body := h'.body.trans h.body
  op? i hi := (h'.op? i (h.body ▸ hi)).trans (h.op? i hi)

theorem Kept.exitOp? (h : f.Kept f' b) : f'.exitOp? b = f.exitOp? b := by
  rw [Func.exitOp?, Func.exitOp?, terminator?, terminator?, h.body]
  cases hlast : (f.body b).getLast? with
  | none => rfl
  | some i =>
    have hop := h.op? i (List.mem_of_getLast? hlast)
    rw [Option.filter_some, Option.filter_some, isTerminator, isTerminator, hop]
    split
    · exact hop
    · rfl

end Func

/-- The code of a call's loop in a function. -/
structure Call.In (c : Call) (f : Func) : Prop where
  moves : c.step ≠ 0
  enter : f.exitOp? c.made.preheader = some (.br c.made.header)
  header : ∃ iv cond br, c.made.iv = .inst iv ∧ f.body c.made.header = [iv, cond, br] ∧
    f.op? iv = some (.phi [(c.made.preheader, c.start), (c.made.latch, c.made.next)]) ∧
    f.op? cond = some (.compare (continueTest c.step) (.inst iv) c.bound) ∧
    f.op? br = some (.condBr (.inst cond) c.made.body c.made.exit)
  repeats : f.exitOp? c.made.tail = some (.br c.made.latch)
  latch : ∃ next br, c.made.next = .inst next ∧ f.body c.made.latch = [next, br] ∧
    f.op? next = some (.binary .add c.made.iv (.const c.step)) ∧
    f.op? br = some (.br c.made.header)

namespace Call.In

variable {c : Call} {f f' : Func} (h : c.In f)

include h

theorem exitOp?_header : ∃ cond,
    f.exitOp? c.made.header = some (.condBr (.inst cond) c.made.body c.made.exit) := by
  obtain ⟨iv, cond, br, -, hbody, -, -, hbr⟩ := h.header
  exact ⟨cond, Func.exitOp?_of_getLast? (by rw [hbody]; rfl) hbr rfl⟩

theorem exitOp?_latch : f.exitOp? c.made.latch = some (.br c.made.header) := by
  obtain ⟨next, br, -, hbody, -, hbr⟩ := h.latch
  exact Func.exitOp?_of_getLast? (by rw [hbody]; rfl) hbr rfl

theorem kept (hkept : ∀ b ∈ c.made.sources, f.Kept f' b) : c.In f' := by
  have hpre := hkept c.made.preheader (by simp [CountedLoop.sources])
  have hhead := hkept c.made.header (by simp [CountedLoop.sources])
  have htail := hkept c.made.tail (by simp [CountedLoop.sources])
  have hlatch := hkept c.made.latch (by simp [CountedLoop.sources])
  obtain ⟨iv, cond, br, hiv, hbody, hphi, hcmp, hbr⟩ := h.header
  obtain ⟨next, back, hnext, hbody', hadd, hback⟩ := h.latch
  have hop := hhead.op?
  have hop' := hlatch.op?
  rw [hbody] at hop
  rw [hbody'] at hop'
  refine ⟨h.moves, hpre.exitOp?.trans h.enter, ⟨iv, cond, br, hiv, hhead.body.trans hbody, ?_, ?_, ?_⟩,
    htail.exitOp?.trans h.repeats, ⟨next, back, hnext, hlatch.body.trans hbody', ?_, ?_⟩⟩
  · rw [hop iv (by simp), hphi]
  · rw [hop cond (by simp), hcmp]
  · rw [hop br (by simp), hbr]
  · rw [hop' next (by simp), hadd]
  · rw [hop' back (by simp), hback]

end Call.In

theorem Builder.Onward.kept {s t : Builder} {b : BlockId} (h : s.Onward t) (hs : s.func.Orderly)
    (hb : b.index < s.func.blocks.size) (hne : b ≠ s.current) : s.func.Kept t.func b where
  body := h.body b hb hne
  op? i hi := h.op? i (hs.lt_of_mem hi)

theorem Build.Closes.op?_of_mem {s s' : Builder} {l : OpenLoop} {m : CountedLoop} {b : BlockId}
    {i : InstId} (h : Closes s l m s') (hs : s.func.Orderly) (hiv : l.iv ∈ s.func.body l.header)
    (hi : i ∈ s.func.body b) (hh : b ≠ l.header) : s'.func.op? i = s.func.op? i := by
  refine h.op?_of_lt (hs.lt_of_mem hi) ?_
  rintro rfl
  exact hh (Option.some.inj (((hs.owned _ _).1 hi).symm.trans ((hs.owned _ _).1 hiv)))

theorem Build.Closes.kept {s s' : Builder} {l : OpenLoop} {m : CountedLoop} {b : BlockId}
    (h : Closes s l m s') (hs : s.func.Orderly) (hiv : l.iv ∈ s.func.body l.header)
    (hb : b.index < s.func.blocks.size) (hne : b ≠ s.current) (hh : b ≠ l.header) :
    s.func.Kept s'.func b where
  body := h.body_of_ne hb hh hne
  op? _ hi := h.op?_of_mem hs hiv hi hh

namespace Writes

variable {ok : Prop} {a : Option CountedLoop} {scope : List Value} {s s₁ s₂ s₃ t : Builder}
  {cs : List Call} {answer : Option Value} {l : OpenLoop} {m : CountedLoop} {start bound : Value}
  {step : Int64} {b : BlockId}

/-- The header of a loop whose body has been written: nothing has come to it since it was opened. -/
theorem header_waits (ho : Opens s start bound step l s₁) (hb : s₁.Onward s₂)
    (hs : s.func.Orderly) :
    s₂.func.body l.header = [l.iv, ⟨s.func.insts.size + 2⟩] ∧
      s₂.func.op? l.iv = some (.phi [(s.current, start)]) ∧
      s₂.func.op? ⟨s.func.insts.size + 2⟩ = some (.compare (continueTest step) (.inst l.iv) bound) := by
  have hready := ho.ready
  have hkept := hb.kept (ho.orderly hs) (b := l.header) (ho.header_lt (.refl hready))
    (ho.header_ne_current (.refl hready))
  have hbody := ho.body_header
  refine ⟨hkept.body.trans hbody, ?_, ?_⟩
  · rw [hkept.op? _ (by simp [hbody]), ho.op?_iv]
  · rw [hkept.op? _ (by simp [hbody]), ho.op?_test]

theorem iv_mem_header (ho : Opens s start bound step l s₁) (hb : s₁.Onward s₂)
    (hs : s.func.Orderly) : l.iv ∈ s₂.func.body l.header := by
  rw [(header_waits ho hb hs).1]
  exact List.mem_cons_self ..

theorem kept_preheader (hr : s.Ready) (hs : s.func.Orderly) (ho : Opens s start bound step l s₁)
    (hb : s₁.Onward s₂) (hc : Closes s₂ l m s₃) : s₁.func.Kept s₃.func s.current := by
  have hready : s.current.index < s.func.blocks.size := hr
  have hsize₁ := ho.size
  have hsize₂ := hb.size
  have hcur := hb.current_le ho.ready
  rw [ho.current] at hcur
  have hfirst : s.current ≠ s₁.current := by
    rw [ho.current, ne_eq, BlockId.eq_mk]
    omega
  have hlast : s.current ≠ s₂.current := fun he => by
    rw [he] at hready
    exact absurd hcur (by simp only; omega)
  have hheader : s.current ≠ l.header := by
    rw [ho.header, ne_eq, BlockId.eq_mk]
    exact hready.ne
  exact (hb.kept (ho.orderly hs) (by omega) hfirst).trans
    (hc.kept (hb.orderly (ho.orderly hs)) (iv_mem_header ho hb hs) (by omega) hlast hheader)

/-- A loop that has been closed is as it was asked for. -/
theorem in_loop (moves : step ≠ 0) (hr : s.Ready) (hs : s.func.Orderly)
    (ho : Opens s start bound step l s₁) (hb : s₁.Onward s₂) (hc : Closes s₂ l m s₃) :
    Call.In ⟨m, start, bound, step, a⟩ s₃.func := by
  obtain ⟨hbody, hphi, hcmp⟩ := header_waits ho hb hs
  have hiv := ho.iv_lt hb
  have hh := ho.header_lt hb
  have hne := ho.header_ne_current hb
  obtain rfl := hc.result
  exact {
    moves
    enter := by
      change s₃.func.exitOp? l.preheader = _
      rw [ho.preheader]
      exact (kept_preheader hr hs ho hb hc).exitOp?.trans (Func.exitOp?_of_getLast?
        (by rw [ho.body_preheader hr, List.getLast?_concat]) ho.op?_enter rfl)
    header := by
      refine ⟨l.iv, ⟨s.func.insts.size + 2⟩, ⟨s₂.func.insts.size + 3⟩, rfl, ?_, ?_, ?_, ?_⟩
      · rw [hc.body_header, hbody]
        rfl
      · rw [hc.op?_iv hiv, hphi, ho.preheader]
        rfl
      · have hlt : s.func.insts.size + 2 < s₂.func.insts.size :=
          (Nat.lt_succ_self _).trans_le (ho.count.symm.trans_le hb.count)
        rw [hc.op?_of_lt hlt (by rw [ho.iv]; simp), hcmp]
      · rw [hc.op?_branch, ho.cond]
    repeats := Func.exitOp?_of_getLast?
      (by rw [hc.body_tail hb.ready hne.symm, List.getLast?_concat]) (hc.op?_jump hiv) rfl
    latch := by
      refine ⟨⟨s₂.func.insts.size + 1⟩, ⟨s₂.func.insts.size + 2⟩, rfl, hc.body_latch hh, ?_, ?_⟩
      · rw [hc.op?_next hiv, ho.by']
      · exact hc.op?_back hiv }

/-- All loops stand as they were asked for. -/
theorem code (h : Writes ok a scope s cs answer t) (hr : s.Ready) (hs : s.func.Orderly) :
    ∀ c ∈ cs, c.In t.func := by
  induction h with
  | done => simp
  | idle hi _ _ ih => exact ih (hi.onward hr).ready (hi.orderly hs)
  | inst _ _ ha _ ih => exact ih (ha.onward hr).ready (ha.orderly hs)
  | @loop a scope s s₁ s₂ s₃ t start bound step l m inner after answer' answer
      moves _ _ ho body hc rest ihb ihr =>
    have hb := body.onward ho.ready
    have ho₁ := ho.orderly hs
    have ho₂ := hb.orderly ho₁
    have ho₃ := hc.orderly ho₂
    have hon := rest.onward hc.ready
    have hord : m.Ordered := (placed_loop (a := a) hr ho hb hc hon).ordered
    have hexit : m.exit = s₃.current := by rw [hc.result, hc.current]
    have hin := body.within ho hc
    intro c hmem
    rcases List.mem_append.1 hmem with hmem | hmem
    · -- what follows the loop leaves its blocks alone, and those of the loops inside it
      have hlast : ∀ b ∈ c.made.sources, b.index < m.exit.index := by
        intro b hb
        rcases List.mem_cons.1 hmem with rfl | hmem
        · exact (hord.of_mem_sources hb).2
        · have := ((body.placed ho.ready c hmem).ordered.of_mem_sources hb).2
          have := (hin c hmem).2
          have := hord.latch
          have := hord.exit
          omega
      refine Call.In.kept ?_ fun b hb => hon.kept ho₃ ?_ ?_
      · rcases List.mem_cons.1 hmem with rfl | hmem
        · exact in_loop moves hr hs ho hb hc
        · have hp := body.placed ho.ready c hmem
          have hready : s₂.current.index < s₂.func.blocks.size := hb.ready
          refine (ihb ho.ready ho₁ c hmem).kept fun b hmem' => ?_
          obtain ⟨hle, hlt⟩ := hp.ordered.of_mem_sources hmem'
          have hexit := hp.exit
          refine hc.kept ho₂ (iv_mem_header ho hb hs) (by omega) (fun he => ?_) fun he => ?_
          · rw [he] at hlt
            omega
          · have := (hin c hmem).1
            rw [he, ho.header] at hle
            rw [hc.result, ho.bodyHead] at this
            simp only at hle this
            omega
      · have := hlast b hb
        rw [hexit] at this
        exact this.trans hc.ready
      · rintro rfl
        exact absurd (hlast _ hb) (by rw [hexit]; exact Nat.lt_irrefl _)
    · exact ihr hc.ready ho₃ c hmem

end Writes

end LoopFusion
