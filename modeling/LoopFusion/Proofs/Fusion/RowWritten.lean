import LoopFusion.Proofs.Flow.BuiltVerified
import LoopFusion.Proofs.Fusion.RowCourse

/-!
Programs that write counted loops one after the other, with straight-line bodies: what they write is
a row, and if the loops are independent a run fuses all of them.
-/

namespace LoopFusion

open Build

/-- A loop that runs its own body only. -/
def CountedLoop.cell (m : CountedLoop) : Cell := ⟨m, [m]⟩

namespace Program

/-- No loop is written. -/
def Straight : Program → Builder → Prop
  | done _, _ => True
  | param name type rest, s =>
    let added := (Build.param name type).run s
    (rest added.1).Straight added.2
  | named v name rest, s => rest.Straight ((setName v name).run s).2
  | inst op _ rest, s =>
    let added := (value op).run s
    (rest added.1).Straight added.2
  | loop .., _ => False

/-- Nothing but loops is written, one after the other, all of them with the same start, bound and
step and with a straight-line body. -/
def InRow (start bound : Value) (step : Int64) : Program → Builder → Prop
  | done _, _ => True
  | param name type rest, s =>
    let added := (Build.param name type).run s
    (rest added.1).InRow start bound step added.2
  | named v name rest, s => rest.InRow start bound step ((setName v name).run s).2
  | inst .., _ => False
  | loop name start' bound' step' _ body rest, s =>
    let opened := (openLoop name start' bound' step').run s
    let made := (countedLoop name start' bound' step' fun iv => discard (body iv).write).run s
    (start' = start ∧ bound' = bound ∧ step' = step) ∧
      (body (.inst opened.1.iv)).Straight opened.2 ∧ (rest made.1).InRow start bound step made.2

variable {p : Program} {s : Builder} {a : Option CountedLoop} {start bound : Value} {step : Int64}

theorem Straight.calls_eq_nil (h : p.Straight s) : p.calls a s = [] := by
  induction p generalizing s with
  | done => rfl
  | param _ _ _ ih => exact ih _ h
  | named _ _ _ ih => exact ih h
  | inst _ _ _ ih => exact ih _ h
  | loop => exact h.elim

theorem Straight.stays (h : p.Straight s) : (p.write.run s).2.current = s.current ∧
    (p.write.run s).2.func.blocks.size = s.func.blocks.size := by
  induction p generalizing s with
  | done => exact ⟨rfl, rfl⟩
  | param _ _ _ ih => exact ih _ h
  | named v name rest ih =>
    obtain ⟨hcurrent, hsize⟩ := ih h
    have hi := idle_setName s v name
    exact ⟨hcurrent.trans hi.current, hsize.trans hi.size⟩
  | inst op plain rest ih =>
    obtain ⟨hcurrent, hsize⟩ := ih _ h
    exact ⟨hcurrent, hsize.trans Func.size_appendInst⟩
  | loop => exact h.elim

end Program

/-- The builder has come to its last block, which is empty. -/
structure Builder.Fresh (s : Builder) : Prop where
  orderly : s.func.Orderly
  last : s.func.blocks.size = s.current.index + 1
  empty : s.func.body s.current = []

theorem Builder.Fresh.ready {s : Builder} (h : s.Fresh) : s.Ready := by
  have := h.last
  rw [Builder.Ready]
  omega

theorem Builder.Fresh.idle {s s' : Builder} (h : s.Fresh) (hi : Idle s s') : s'.Fresh where
  orderly := hi.orderly h.orderly
  last := by rw [hi.size, hi.current, h.last]
  empty := by rw [hi.body, hi.current, h.empty]

/-- A call that has written one loop of a row. -/
structure Call.InRow (c : Call) (start bound : Value) (step : Int64) (f : Func) : Prop where
  start : c.start = start
  bound : c.bound = bound
  step : c.step = step
  tail : c.made.tail = c.made.body
  passes : ∃ i, f.body c.made.preheader = [i]
  plain : ∃ is i, f.body c.made.body = is ++ [i] ∧ f.AllOps (·.Plain) is

theorem Call.InRow.kept {c : Call} {start bound : Value} {step : Int64} {f f' : Func}
    (h : c.InRow start bound step f) (hpre : f.Kept f' c.made.preheader)
    (hbody : f.Kept f' c.made.body) : c.InRow start bound step f' := by
  obtain ⟨i, hi⟩ := h.passes
  obtain ⟨is, j, hj, his⟩ := h.plain
  refine ⟨h.start, h.bound, h.step, h.tail, ⟨i, hpre.body.trans hi⟩, is, j, hbody.body.trans hj,
    his.congr fun k hk => hbody.op? k ?_⟩
  rw [hj]
  exact List.mem_append_left _ hk

/-- The loops written from `s` to `t`, one after the other. -/
structure Builder.Lines (s t : Builder) (start bound : Value) (step : Int64) (cs : List Call) :
    Prop where
  fresh : t.Fresh
  linked : Cell.Linked s.current (cs.map (·.made.cell))
  last : Cell.last s.current (cs.map (·.made.cell)) = t.current
  arena : t.func.arena = s.func.arena ++ (cs.map (·.made.cell)).flatMap Cell.blocks
  calls : ∀ c ∈ cs, c.InRow start bound step t.func
  inside : ∀ c ∈ cs, c.made.preheader.index < t.current.index ∧
    c.made.body.index < t.current.index

theorem Func.arena_congr {f f' : Func} (h : f.blocks.size = f'.blocks.size) :
    f.arena = f'.arena := congrArg (fun n => (List.range n).map BlockId.mk) h

namespace Builder.Lines

variable {s s₁ s₂ s₃ t u : Builder} {start bound : Value} {step : Int64} {cs cs' : List Call}
  {l : OpenLoop} {m : CountedLoop} {a : Option CountedLoop}

theorem refl (h : s.Fresh) : s.Lines s start bound step [] :=
  ⟨h, trivial, rfl, by simp, by simp, by simp⟩

theorem trans (h : s.Lines t start bound step cs) (h' : t.Lines u start bound step cs')
    (hon : t.Onward u) : s.Lines u start bound step (cs ++ cs') where
  fresh := h'.fresh
  linked := by
    rw [List.map_append, Cell.linked_append, h.last]
    exact ⟨h.linked, h'.linked⟩
  last := by rw [List.map_append, Cell.last_append, h.last, h'.last]
  arena := by rw [h'.arena, h.arena, List.map_append, List.flatMap_append, List.append_assoc]
  calls c hc := by
    rcases List.mem_append.1 hc with hc | hc
    · have hlast := h.fresh.last
      obtain ⟨hpre, hbody⟩ := h.inside c hc
      have hkept : ∀ b : BlockId, b.index < t.current.index → t.func.Kept u.func b := fun b hb =>
        hon.kept h.fresh.orderly (by omega) fun he => Nat.lt_irrefl _ (he ▸ hb)
      exact (h.calls c hc).kept (hkept _ hpre) (hkept _ hbody)
    · exact h'.calls c hc
  inside c hc := by
    have hle := hon.current_le h.fresh.ready
    rcases List.mem_append.1 hc with hc | hc
    · have := h.inside c hc
      omega
    · exact h'.inside c hc

/-- What writes no code and no block does not count. -/
theorem of_idle {s' : Builder} (hi : Idle s s') (h : s'.Lines t start bound step cs) :
    s.Lines t start bound step cs where
  fresh := h.fresh
  linked := hi.current ▸ h.linked
  last := hi.current ▸ h.last
  arena := by rw [h.arena, Func.arena_congr hi.size]
  calls := h.calls
  inside := h.inside

section

variable (hs : s.Fresh) (ho : Opens s start bound step l s₁) (hc : Closes s₂ l m s₃)
  (hsize : s₂.func.blocks.size = s₁.func.blocks.size)

include ho hc hsize

/-- The blocks of a loop whose body is one block, by their numbers. -/
theorem blocks_made : m.cell.blocks = (List.range' s.func.blocks.size 4).map BlockId.mk := by
  obtain rfl := hc.result
  change [l.header, l.body, ⟨s₂.func.blocks.size⟩, ⟨s₂.func.blocks.size + 1⟩] = _
  rw [ho.header, ho.bodyHead, hsize, ho.size]
  rfl

theorem arena_made : s₃.func.arena = s.func.arena ++ m.cell.blocks := by
  rw [blocks_made ho hc hsize, Func.arena, Func.arena, hc.size, hsize, ho.size,
    ← List.map_append, List.range_add (n := s.func.blocks.size) (m := 4), List.range'_eq_map_range]

include hs in
/-- A loop whose body is straight-line code. -/
theorem loop (hb : s₁.Onward s₂) (hcurrent : s₂.current = s₁.current)
    (hplain : s₂.func.AllOps (·.Plain) (s₂.func.body s₂.current)) :
    s.Lines s₃ start bound step [⟨m, start, bound, step, a⟩] := by
  have hos₂ := hb.orderly (ho.orderly hs.orderly)
  have hne := (ho.header_ne_current hb).symm
  have hlast := hs.last
  have hpre : m.preheader = s.current := by rw [hc.result]; exact ho.preheader
  have htail : m.tail = s₂.current := by rw [hc.result]
  have hbody : m.body = s₂.current := by rw [hc.result, hcurrent, ho.current]; exact ho.bodyHead
  have hcur : s₂.current = ⟨s.func.blocks.size + 1⟩ := hcurrent.trans ho.current
  have hcur₃ : s₃.current = ⟨s.func.blocks.size + 3⟩ := by rw [hc.current, hsize, ho.size]
  have hrow : Call.InRow ⟨m, start, bound, step, a⟩ start bound step s₃.func := {
    start := rfl
    bound := rfl
    step := rfl
    tail := htail.trans hbody.symm
    passes := by
      refine ⟨⟨s.func.insts.size⟩, ?_⟩
      change s₃.func.body m.preheader = _
      rw [hpre, (Writes.kept_preheader hs.ready hs.orderly ho hb hc).body,
        ho.body_preheader hs.ready, hs.empty]
      rfl
    plain := by
      refine ⟨_, _, by rw [hbody, hc.body_tail hb.ready hne], hplain.congr fun i hi => ?_⟩
      exact hc.op?_of_mem hos₂ (Writes.iv_mem_header ho hb hs.orderly) hi hne }
  exact {
    fresh := {
      orderly := hc.orderly hos₂
      last := by
        have hsize₁ := ho.size
        have hsize₃ := hc.size
        rw [hcur₃]
        simp only
        omega
      empty := hc.body_current hb.ready (ho.header_lt hb) }
    linked := ⟨hpre, trivial⟩
    last := by
      change m.exit = s₃.current
      rw [hc.result, hc.current]
    arena := by simpa using arena_made ho hc hsize
    calls := List.forall_mem_singleton.2 hrow
    inside := by
      refine List.forall_mem_singleton.2 ?_
      simp only [hpre, hbody, hcur, hcur₃]
      omega }

end

end Builder.Lines

namespace Program

variable {p : Program} {s : Builder} {a : Option CountedLoop} {start bound : Value} {step : Int64}

theorem InRow.lines (h : p.InRow start bound step s) (hs : s.Fresh) :
    s.Lines (p.write.run s).2 start bound step (p.calls a s) := by
  induction p generalizing s with
  | done => exact .refl hs
  | param name type rest ih =>
    have hi := idle_param s name type
    exact .of_idle hi (ih _ h (hs.idle hi))
  | named v name rest ih =>
    have hi := idle_setName s v name
    exact .of_idle hi (ih h (hs.idle hi))
  | inst => exact h.elim
  | loop name start' bound' step' moves body rest _ ih =>
    obtain ⟨⟨rfl, rfl, rfl⟩, hstraight, hrest⟩ := h
    let made := (countedLoop name start' bound' step' fun iv => discard (body iv).write).run s
    have ho := opens s name start' bound' step' hs.ready
    let opened := (openLoop name start' bound' step').run s
    have hw : Writes False (some made.1) [] opened.2 _ _ _ :=
      (body (.inst opened.1.iv)).writes _ _ _ ho.ready False.elim
    have hb := hw.onward ho.ready
    have hc := closes_of_onward ho hb
    obtain ⟨hcurrent, hsize⟩ := hstraight.stays
    have hplain := (hw.finished ho.ready (ho.orderly hs.orderly)
      (ho.body_current hs.ready ▸ Func.allOps_nil)).1
    have hfirst : s.Lines made.2 start' bound' step' [⟨made.1, start', bound', step', a⟩] :=
      .loop hs ho hc hsize hb hcurrent hplain
    have hafter : Writes False a [] made.2 _ _ _ :=
      (rest made.1).writes _ _ _ hfirst.fresh.ready False.elim
    rw [calls, hstraight.calls_eq_nil]
    exact hfirst.trans (ih _ hrest hfirst.fresh) (hafter.onward hfirst.fresh.ready)

/-- The loops that a program writes, in order. -/
def loops (name : String) (p : Program) : List CountedLoop :=
  (p.calls none (.start name)).map (·.made)

/-- What is returned, if anything, is a constant, a parameter or an induction variable. -/
def Answers (name : String) (p : Program) : Prop :=
  ∀ v ∈ (p.write.run (.start name)).1, v.Outer ∨ ∃ m ∈ p.loops name, v = m.iv

/-- What a program writes as a row. -/
def draft (name : String) (p : Program) (start bound : Value) (step : Int64) : Draft :=
  ⟨p.func name, p.loops name, start, bound, step⟩

theorem start_fresh (name : String) : (Builder.start name).Fresh := ⟨start_orderly name, rfl, rfl⟩

theorem InRow.lines_start {name : String} (h : p.InRow start bound step (.start name)) :
    (Builder.start name).Lines (p.written name) start bound step (p.calls none (.start name)) :=
  h.lines (start_fresh name)

theorem InRow.exists_call {name : String} (h : p.InRow start bound step (.start name))
    {m : CountedLoop} (hm : m ∈ p.loops name) : ∃ c ∈ p.calls none (.start name), c.made = m ∧
      c.InRow start bound step (p.func name) := by
  have hl := h.lines_start
  have hlast := hl.fresh.last
  obtain ⟨c, hc, rfl⟩ := List.mem_map.1 hm
  obtain ⟨hpre, hbody⟩ := hl.inside c hc
  have hkept : ∀ b : BlockId, b.index < (p.written name).current.index →
      (p.written name).func.Kept (p.func name) b := fun b hb =>
    ((p.returns name).onward hl.fresh.ready).kept hl.fresh.orderly (by omega) fun he =>
      Nat.lt_irrefl _ (he ▸ hb)
  exact ⟨c, hc, rfl, (hl.calls c hc).kept (hkept _ hpre) (hkept _ hbody)⟩

/-- Loops written one after the other are a row. -/
theorem InRow.row {name : String} (h : p.InRow start bound step (.start name))
    (hscoped : p.Scoped [] (.start name)) (hanswer : p.Answers name) :
    (p.draft name start bound step).Row (p.func name) ⟨0⟩
      ((p.loops name).map CountedLoop.cell) := by
  have hbuilt := p.built name
  have hret := p.returns name
  have hl := h.lines_start
  have hcells : (p.loops name).map CountedLoop.cell =
      (p.calls none (.start name)).map (·.made.cell) := List.map_map
  have hcall : ∀ c ∈ (p.loops name).map CountedLoop.cell, ∃ k ∈ p.calls none (.start name),
      c = k.made.cell ∧ k.InRow start bound step (p.func name) := by
    intro c hc
    obtain ⟨m, hm, rfl⟩ := List.mem_map.1 hc
    obtain ⟨k, hk, rfl, hrow⟩ := h.exists_call hm
    exact ⟨k, hk, rfl, hrow⟩
  exact {
    wellFormed := hbuilt.wellFormed (p.finished name) (p.served name hscoped)
    params := rfl
    parts := by simp [CountedLoop.cell, draft, List.flatMap_map]
    layout := by
      rw [hbuilt.orderly.layout, Func.arena_congr hret.size, hl.arena, hcells]
      rfl
    linked := hcells ▸ hl.linked
    code := by
      intro c hc
      obtain ⟨k, hk, rfl, hrow⟩ := hcall c hc
      obtain ⟨moves, henter, hheader, hrepeats, hlatch⟩ := hbuilt.code k hk
      rw [hrow.start, hrow.bound] at hheader
      rw [hrow.step] at moves hheader hlatch
      exact ⟨moves, henter, hheader, hrepeats, hlatch⟩
    threaded := by
      intro c hc
      obtain ⟨k, -, rfl, hrow⟩ := hcall c hc
      exact ⟨rfl, congrArg some hrow.tail.symm, fun _ _ _ _ hy => nomatch hy⟩
    passes := by
      intro c hc
      obtain ⟨k, -, rfl, hrow⟩ := hcall c hc
      exact hrow.passes
    returns := by
      have hlast : Cell.last ⟨0⟩ ((p.loops name).map CountedLoop.cell) = (p.written name).current :=
        hcells ▸ hl.last
      refine ⟨_, _, ?_, (hret.op? _).trans (if_pos rfl), fun v hv => (hanswer v hv).imp_right ?_⟩
      · rw [hlast, hret.body, if_pos rfl, hl.fresh.empty]
        rfl
      · rintro ⟨m, hm, rfl⟩
        exact ⟨m.cell, List.mem_map_of_mem hm, rfl⟩
    kept := by
      intro c hc m hm
      obtain ⟨n, -, rfl⟩ := List.mem_map.1 hc
      obtain rfl := List.mem_singleton.1 hm
      have hsame : Operation.mapOperands (replace m.iv m.iv) = id := by
        rw [funext (replace_self m.iv)]
        exact funext Operation.mapOperands_id
      refine ⟨rfl, fun i _ => ⟨rfl, fun _ => ?_⟩⟩
      change (p.func name).op? i = ((p.func name).op? i).map (.mapOperands (replace m.iv m.iv))
      rw [hsame, Option.map_id, id] }

end Program

/-- The loops compute with constants, parameters, their induction variable and what their body has
computed itself, and no array that one of them stores to is accessed by another. -/
structure Func.Separate (f : Func) (loops : List CountedLoop) : Prop where
  own : ∀ m ∈ loops, ∀ i ∈ f.body m.body, ∀ v ∈ f.operands i,
    v.Outer ∨ v = m.iv ∨ ∃ j ∈ f.body m.body, v = .inst j
  rooted : ∀ m ∈ loops, ∀ i ∈ f.body m.body, f.accessesMemory i → (f.array? i).isSome
  apart : ∀ m ∈ loops, ∀ n ∈ loops, m ≠ n → ∀ i ∈ f.body m.body, ∀ j ∈ f.body n.body,
    f.writesMemory i → f.accessesMemory j → f.array? i ≠ f.array? j

/-- There is one loop. It is the first of the given ones, and it runs the bodies of all of them in
their order, with its induction variable in place of theirs. -/
structure Func.Gathers (f : Func) (loops : List CountedLoop) (first : CountedLoop) (g : Func) :
    Prop where
  loop : ∃ l, g.forest.loops = [l] ∧ l.header = first.header ∧ l.bodyBlocks = loops.map (·.body)
  adjacent : loops.map (·.body) <:+: g.layout
  kept : ∀ m ∈ loops, g.body m.body = f.body m.body ∧
    ∀ i ∈ f.body m.body, g.isTerminator i = f.isTerminator i ∧ (¬ f.isTerminator i →
      g.op? i = (f.op? i).map (.mapOperands (replace m.iv first.iv)))

theorem Draft.Row.gathers {d : Draft} {g : Func} {e : BlockId} {c : Cell} {first : CountedLoop}
    (h : d.Row g e [c]) (hheader : first.header = c.made.header) (hiv : first.iv = c.made.iv) :
    d.func.Gathers d.loops first g := by
  have hparts : c.parts = d.loops := (List.append_nil _).symm.trans h.parts
  have hbodies : c.bodies = d.loops.map (·.body) := congrArg _ hparts
  obtain ⟨l, hl, hlc, hbody, hinfix⟩ := h.loops_single
  refine ⟨⟨l, hl, hlc.trans hheader.symm, hbody.trans hbodies⟩, hbodies ▸ hinfix, fun m hm => ?_⟩
  obtain ⟨hbody, hops⟩ := h.kept c (List.mem_singleton_self c) m (hparts ▸ hm)
  rw [hiv]
  exact ⟨hbody, fun i hi => hops i (hbody ▸ hi)⟩

namespace Program

open Pass

variable {p : Program} {start bound : Value} {step : Int64} {name : String}

theorem InRow.independent (h : p.InRow start bound step (.start name)) (hstart : start.Outer)
    (hbound : bound.Outer) (hrow : (p.draft name start bound step).Row (p.func name) ⟨0⟩
      ((p.loops name).map CountedLoop.cell))
    (hs : (p.func name).Separate (p.loops name)) : (p.draft name start bound step).Independent where
  nodup := by
    have := (p.built name).nodup_headers
    rw [← Function.comp_def, ← List.map_map] at this
    exact this.of_map _
  start := hstart
  bound := hbound
  counter m hm := by
    obtain ⟨iv, cond, br, hiv, -, hphi, -⟩ := hrow.header (List.mem_map_of_mem hm)
    exact ⟨iv, hiv, Func.isPhi_of_op? hphi⟩
  own m hm i hi ht := by
    obtain ⟨c, hc, rfl, hcall⟩ := h.exists_call hm
    obtain ⟨is, t, hbody, his⟩ := hcall.plain
    have hi' : i ∈ is ++ [t] := hbody ▸ hi
    rcases List.mem_append.1 hi' with hi' | hi'
    · obtain ⟨op, hop, hplain⟩ := his i hi'
      refine ⟨op, hop, hplain, fun v hv => hs.own _ hm i hi v ?_⟩
      rw [Func.operands, hop]
      exact hv
    · have hjump := (hrow.code _ (List.mem_map_of_mem hm)).repeats
      change (p.func name).exitOp? c.made.tail = _ at hjump
      obtain ⟨t', hlast, hop, hterm⟩ := Func.exitOp?_eq_some hjump
      rw [hcall.tail, hbody, List.getLast?_concat] at hlast
      obtain rfl := Option.some.inj hlast
      rw [List.mem_singleton.1 hi'] at ht
      exact absurd (Func.isTerminator_of_op? hop) ht
  rooted := hs.rooted
  apart := hs.apart

end Program

namespace Pass

/-- Independent loops written one after the other are all fused, whatever names are known before, in
as many rounds as there are loops. One loop runs all their bodies in the end. -/
theorem run_fuses_row (name : String) (p : Program) {start bound : Value} {step : Int64}
    (hstart : start.Outer) (hbound : bound.Outer) (hrow : p.InRow start bound step (.start name))
    (hscoped : p.Scoped [] (.start name)) (hanswer : p.Answers name)
    (hsep : (p.func name).Separate (p.loops name))
    (hcount : ∃ l ∈ (p.func name).forest.loops, ∃ s,
      ((Engine.ofFunc (p.func name) (p.func name).forest).tripCount l.id s).1.isSome)
    (s : Session) : ∃ first report, (p.loops name).head? = some first ∧
      (run .standard (p.func name) s).1.result = .ok report ∧
      report.fused.length + 1 = (p.loops name).length ∧
      report.rounds = (p.loops name).length ∧
      (p.func name).Gathers (p.loops name) first (run .standard (p.func name) s).1.func := by
  have hr := hrow.row hscoped hanswer
  have hd := hrow.independent hstart hbound hr hsep
  -- the count of one loop is the count of all, with any names
  obtain ⟨l₀, hl₀, s₀, hs₀⟩ := hcount
  obtain ⟨c₀, hc₀, hlc₀⟩ := hr.exists_cell hl₀
  have hcount : ∀ t, ((p.draft name start bound step).count t).1.isSome := by
    intro t
    have hcounted := hr.tripCount_eq hd hc₀ hl₀ hlc₀ s₀
    change Describe.tripCount _ _ _ _ = _ at hcounted
    change (Describe.tripCount _ _ _ _).1.isSome = true at hs₀
    rw [hcounted] at hs₀
    rw [← hs₀]
    exact Func.isSome_count hstart hbound t s₀.symbols
  obtain ⟨report, looks, htells⟩ := exists_tells_run .standard hr.wellFormed s
  obtain ⟨c, hc, hhead, hpairs, hlooks⟩ :=
    hr.ends_single (List.ne_nil_of_mem hc₀) hd hcount htells.course
  rw [List.length_map] at hpairs hlooks
  rw [List.head?_map, Option.map_map] at hhead
  obtain ⟨first, hfirst, heq⟩ := Option.map_eq_some_iff.1 hhead
  have hrounds : report.rounds = looks.length := htells.rounds.trans (Nat.zero_add _)
  exact ⟨first, report, hfirst, htells.result, hpairs, hrounds.trans hlooks,
    hc.gathers (congrArg Prod.fst heq) (congrArg Prod.snd heq)⟩

end Pass

namespace Program

theorem step_up : (1 : Int64) ≠ 0 := by decide

/-- Three arrays are written, each by a loop of its own, up to the same bound, and the variable that
the second loop leaves is returned. -/
def threeArrays : Program :=
  .param "A" .ptr fun a => .param "B" .ptr fun b => .param "C" .ptr fun c =>
  .param "n" .int fun n =>
  .loop "i" (.const 0) n 1 step_up
    (fun i => .inst (.gep a i) (.gep _ _) fun at' =>
      .inst (.store at' i) (.store _ _) fun _ => .done none) fun _ =>
  .loop "j" (.const 0) n 1 step_up
    (fun j => .inst (.binary .mul j j) (.binary _ _ _) fun square =>
      .inst (.gep b j) (.gep _ _) fun at' =>
      .inst (.store at' square) (.store _ _) fun _ => .done none) fun second =>
  .loop "k" (.const 0) n 1 step_up
    (fun k => .inst (.gep c k) (.gep _ _) fun at' =>
      .inst (.load at') (.load _) fun old =>
      .inst (.binary .add old n) (.binary _ _ _) fun new =>
      .inst (.store at' new) (.store _ _) fun _ => .done none) fun _ =>
  .done (some second.iv)

theorem threeArrays_inRow :
    threeArrays.InRow (.const 0) (.param 3) 1 (.start "threeArrays") :=
  ⟨⟨rfl, rfl, rfl⟩, trivial, ⟨rfl, rfl, rfl⟩, trivial, ⟨rfl, rfl, rfl⟩, trivial, trivial⟩

theorem threeArrays_scoped : threeArrays.Scoped [] (.start "threeArrays") := by
  refine scoped_param fun a _ => scoped_param fun b _ => scoped_param fun c _ =>
    scoped_param fun n _ => ?_
  have hops : ∀ {op : Operation} {scope}, (∀ v ∈ op.operands, v ∈ scope) →
      ∀ v ∈ op.operands, InScope scope v := fun h v hv => .inr (h v hv)
  refine scoped_loop (.inl ⟨_, rfl⟩) (.inr (by simp)) (fun i _ _ => ?_) fun _ _ _ => ?_
  · refine scoped_value (hops (by simp [Operation.operands])) rfl fun _ _ =>
      scoped_inst (hops (by simp [Operation.operands])) fun _ _ => ?_
    simp [Scoped]
  refine scoped_loop (.inl ⟨_, rfl⟩) (.inr (by simp)) (fun j _ _ => ?_) fun second _ _ => ?_
  · refine scoped_value (hops (by simp [Operation.operands])) rfl fun _ _ =>
      scoped_value (hops (by simp [Operation.operands])) rfl fun _ _ =>
      scoped_inst (hops (by simp [Operation.operands])) fun _ _ => ?_
    simp [Scoped]
  refine scoped_loop (.inl ⟨_, rfl⟩) (.inr (by simp)) (fun k _ _ => ?_) fun _ _ _ => ?_
  · refine scoped_value (hops (by simp [Operation.operands])) rfl fun _ _ =>
      scoped_value (hops (by simp [Operation.operands])) rfl fun _ _ =>
      scoped_value (hops (by simp [Operation.operands])) rfl fun _ _ =>
      scoped_inst (hops (by simp [Operation.operands])) fun _ _ => ?_
    simp [Scoped]
  · simp [Scoped, InScope]

end Program

theorem Pass.run_fuses_row_threeArrays :
    ∃ first report, (Program.threeArrays.loops "threeArrays").head? = some first ∧
      (run .standard (Program.threeArrays.func "threeArrays") .start).1.result = .ok report ∧
      report.fused.length = 2 ∧ report.rounds = 3 ∧ (Program.threeArrays.func "threeArrays").Gathers
        (Program.threeArrays.loops "threeArrays") first
        (run .standard (Program.threeArrays.func "threeArrays") .start).1.func := by
  have hanswers : Program.threeArrays.Answers "threeArrays" :=
    fun v hv => .inr (by revert v hv; decide +kernel)
  have hseparate : (Program.threeArrays.func "threeArrays").Separate
      (Program.threeArrays.loops "threeArrays") :=
    ⟨by decide +kernel, by decide +kernel, by decide +kernel⟩
  have hany : ((Program.threeArrays.func "threeArrays").forest.loops.any fun l =>
      ((Engine.ofFunc (Program.threeArrays.func "threeArrays")
        (Program.threeArrays.func "threeArrays").forest).tripCount l.id .start).1.isSome) = true := by
    decide +kernel
  obtain ⟨l, hl, hcount⟩ := List.any_eq_true.1 hany
  obtain ⟨first, report, hfirst, hresult, hfused, hrounds, hgathers⟩ :=
    run_fuses_row "threeArrays" .threeArrays (.inl ⟨_, rfl⟩) (.inr ⟨_, rfl⟩)
      Program.threeArrays_inRow Program.threeArrays_scoped hanswers hseparate
      ⟨l, hl, .start, hcount⟩ .start
  have hloops : (Program.threeArrays.loops "threeArrays").length = 3 := by decide +kernel
  exact ⟨first, report, hfirst, hresult, by omega, hrounds.trans hloops, hgathers⟩

end LoopFusion
