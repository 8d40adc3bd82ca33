import LoopFusion.Proofs.Ir.Program

/-!
How the blocks of written loops stand: in the order in which they were added, the loops of a body
between its first and its last block.
-/

namespace LoopFusion

open Build

namespace CountedLoop

/-- The blocks of a loop in the order in which they were added. -/
structure Ordered (m : CountedLoop) : Prop where
  header : m.preheader.index < m.header.index
  body : m.body.index = m.header.index + 1
  tail : m.body.index ≤ m.tail.index
  latch : m.tail.index < m.latch.index
  exit : m.exit.index = m.latch.index + 1

/-- The loop `n` is part of the body of `m`. -/
def Within (n m : CountedLoop) : Prop :=
  m.body.index ≤ n.preheader.index ∧ n.exit.index ≤ m.tail.index

/-- The loop `n` starts where `m` has been left, or later. -/
def Behind (n m : CountedLoop) : Prop := m.exit.index ≤ n.preheader.index

/-- Where control goes on from: into the loop, through it, around it or past it. -/
def sources (m : CountedLoop) : List BlockId := [m.preheader, m.header, m.tail, m.latch]

/-- Where control comes to in the loop and right after it. -/
def targets (m : CountedLoop) : List BlockId := [m.header, m.body, m.latch, m.exit]

variable {k m n : CountedLoop}

theorem Behind.of_within (h : k.Behind m) (hw : n.Within m) (hm : m.Ordered) : k.Behind n := by
  have := hm.latch
  have := hm.exit
  have := hw.2
  rw [Behind] at h ⊢
  omega

theorem Within.not_within (h : n.Within m) (hn : n.Ordered) (hm : m.Ordered) : ¬ m.Within n := by
  intro hw
  have := hn.header
  have := hn.body
  have := hm.header
  have := hm.body
  have := h.1
  have := hw.1
  omega

theorem Behind.not_within (h : n.Behind m) (hn : n.Ordered) (hm : m.Ordered) : ¬ m.Within n := by
  intro hw
  have := hn.header
  have := hn.body
  have := hm.header
  have := hm.body
  have := hm.tail
  have := hm.latch
  have := hm.exit
  have := hw.1
  rw [Behind] at h
  omega

theorem Behind.not_within' (h : n.Behind m) (hn : n.Ordered) (hm : m.Ordered) :
    ¬ n.Within m := by
  intro hw
  have := hn.header
  have := hn.body
  have := hn.tail
  have := hn.latch
  have := hn.exit
  have := hm.latch
  have := hm.exit
  have := hw.2
  rw [Behind] at h
  omega

theorem Ordered.of_mem_sources (hm : m.Ordered) {b : BlockId} (hb : b ∈ m.sources) :
    m.preheader.index ≤ b.index ∧ b.index < m.exit.index := by
  have := hm.header
  have := hm.body
  have := hm.tail
  have := hm.latch
  have := hm.exit
  simp only [sources, List.mem_cons, List.not_mem_nil, or_false] at hb
  rcases hb with rfl | rfl | rfl | rfl <;> omega

theorem Ordered.not_within (hm : m.Ordered) : ¬ m.Within m := fun h => h.not_within hm hm h

end CountedLoop

/-- Where the loop of a call stands among the blocks written from `s` to `t`. -/
structure Call.Placed (c : Call) (s t : Builder) : Prop where
  ordered : c.made.Ordered
  preheader : c.made.preheader = s.current ∨ s.func.blocks.size ≤ c.made.preheader.index
  header : s.func.blocks.size ≤ c.made.header.index
  exit : c.made.exit.index ≤ t.current.index

theorem Call.Placed.wider {c : Call} {s s' t t' : Builder} (h : c.Placed s' t')
    (hpre : s.func.blocks.size ≤ s'.current.index)
    (hsize : s.func.blocks.size ≤ s'.func.blocks.size)
    (hlast : t'.current.index ≤ t.current.index) : c.Placed s t where
  ordered := h.ordered
  preheader := by
    right
    rcases h.preheader with he | hle
    · rwa [he]
    · omega
  header := hsize.trans h.header
  exit := h.exit.trans hlast

/-- Of the calls `cs` made in the body of `a`, the call knows the innermost one around it. -/
def Call.Knows (a : Option CountedLoop) (cs : List Call) (c : Call) : Prop :=
  (c.around? = a ∧ ∀ d ∈ cs, ¬ c.made.Within d.made) ∨
    ∃ o ∈ cs, c.around? = some o.made ∧ c.made.Within o.made ∧
      ∀ d ∈ cs, c.made.Within d.made → d.made = o.made ∨ o.made.Within d.made

namespace Call.Knows

variable {a b : Option CountedLoop} {cs ds : List Call} {c o : Call}

/-- Further calls that are not around it do not matter. -/
theorem more (h : c.Knows a cs) (hsub : cs ⊆ ds)
    (hmore : ∀ d ∈ ds, d ∈ cs ∨ ¬ c.made.Within d.made) : c.Knows a ds := by
  rcases h with ⟨hown, hnone⟩ | ⟨o, ho, hown, hw, hleast⟩
  · exact .inl ⟨hown, fun d hd => (hmore d hd).elim (hnone d) id⟩
  · refine .inr ⟨o, hsub ho, hown, hw, fun d hd hcd => ?_⟩
    exact (hmore d hd).elim (hleast d · hcd) (absurd hcd)

/-- A call in the body of `o`, seen with `o` itself. -/
theorem inside (h : c.Knows (some o.made) cs) (hin : ∀ d ∈ cs, d.made.Within o.made)
    (hc : c ∈ cs) : c.Knows b (o :: cs) := by
  right
  rcases h with ⟨hown, hnone⟩ | ⟨p, hp, hown, hw, hleast⟩
  · refine ⟨o, List.mem_cons_self .., hown, hin c hc, fun d hd hcd => ?_⟩
    rcases List.mem_cons.1 hd with rfl | hd
    · exact .inl rfl
    · exact absurd hcd (hnone d hd)
  · refine ⟨p, List.mem_cons_of_mem _ hp, hown, hw, fun d hd hcd => ?_⟩
    rcases List.mem_cons.1 hd with rfl | hd
    · exact .inr (hin p hp)
    · exact hleast d hd hcd

end Call.Knows

namespace Writes

variable {ok : Prop} {a : Option CountedLoop} {scope : List Value} {s s₁ s₂ s₃ t : Builder}
  {cs : List Call} {answer : Option Value} {l : OpenLoop} {m : CountedLoop} {start bound : Value}
  {step : Int64} {b : BlockId}

theorem placed_loop (hs : s.Ready) (ho : Opens s start bound step l s₁) (hb : s₁.Onward s₂)
    (hc : Closes s₂ l m s₃) (hr : s₃.Onward t) :
    Call.Placed ⟨m, start, bound, step, a⟩ s t where
  ordered := by
    have hle := hb.current_le ho.ready
    rw [ho.current] at hle
    rw [hc.result, ho.preheader, ho.header, ho.bodyHead]
    exact ⟨hs, rfl, hle, hb.ready, rfl⟩
  preheader := by
    rw [hc.result, ho.preheader]
    exact .inl rfl
  header := by
    rw [hc.result, ho.header]
  exit := by
    have hle := hr.current_le hc.ready
    rw [hc.current] at hle
    rwa [hc.result]

theorem placed (h : Writes ok a scope s cs answer t) (hs : s.Ready) : ∀ c ∈ cs, c.Placed s t := by
  induction h with
  | done => simp
  | idle hi _ _ ih =>
    intro c hc
    have := ih (hi.onward hs).ready c hc
    exact ⟨this.ordered, hi.current ▸ hi.size ▸ this.preheader, hi.size ▸ this.header, this.exit⟩
  | inst _ _ ha _ ih =>
    intro c hc
    have := ih (ha.onward hs).ready c hc
    exact ⟨this.ordered, ha.current ▸ ha.size ▸ this.preheader, ha.size ▸ this.header, this.exit⟩
  | @loop a scope s s₁ s₂ s₃ t start bound step l m inner after answer' answer
      _ _ _ ho body hc rest ihb ihr =>
    have hb := body.onward ho.ready
    have hr := rest.onward hc.ready
    have hsize₁ := ho.size
    have hsize₂ := hb.size
    have hsize₃ := hc.size
    have hlast := hr.current_le hc.ready
    have hready : s₂.current.index < s₂.func.blocks.size := hb.ready
    intro c hmem
    rcases List.mem_append.1 hmem with hmem | hmem
    · rcases List.mem_cons.1 hmem with rfl | hmem
      · exact placed_loop hs ho hb hc hr
      · refine (ihb ho.ready c hmem).wider ?_ (by omega) ?_
        · rw [ho.current]
          exact Nat.le_succ _
        · rw [hc.current] at hlast
          change s₂.func.blocks.size + 1 ≤ _ at hlast
          omega
    · refine (ihr hc.ready c hmem).wider ?_ (by omega) (Nat.le_refl _)
      rw [hc.current]
      change _ ≤ s₂.func.blocks.size + 1
      omega

theorem within (ho : Opens s start bound step l s₁) (body : Writes ok a scope s₁ cs answer s₂)
    (hc : Closes s₂ l m s₃) : ∀ c ∈ cs, c.made.Within m := by
  intro c hmem
  have hp := body.placed ho.ready c hmem
  have hsize₁ := ho.size
  rw [hc.result, ho.bodyHead]
  refine ⟨?_, hp.exit⟩
  change s.func.blocks.size + 1 ≤ _
  rcases hp.preheader with he | hle
  · rw [he, ho.current]
  · omega

theorem behind (hc : Closes s₂ l m s₃) (rest : Writes ok a scope s₃ cs answer t) :
    ∀ c ∈ cs, c.made.Behind m := by
  intro c hmem
  have hsize₃ := hc.size
  rw [CountedLoop.Behind, hc.result]
  change s₂.func.blocks.size + 1 ≤ _
  rcases (rest.placed hc.ready c hmem).preheader with he | hle
  · rw [he, hc.current]
  · omega

/-- A later call is made in the body of an earlier one or after it. -/
theorem arranged (h : Writes ok a scope s cs answer t) (hs : s.Ready) :
    cs.Pairwise fun c d => d.made.Within c.made ∨ d.made.Behind c.made := by
  induction h with
  | done => exact .nil
  | idle hi _ _ ih => exact ih (hi.onward hs).ready
  | inst _ _ ha _ ih => exact ih (ha.onward hs).ready
  | @loop a scope s s₁ s₂ s₃ t start bound step l m inner after answer' answer
      _ _ _ ho body hc rest ihb ihr =>
    have hin := body.within ho hc
    have hbehind := rest.behind hc
    have hfirst : ((⟨m, start, bound, step, a⟩ : Call) :: inner).Pairwise fun c d =>
        d.made.Within c.made ∨ d.made.Behind c.made :=
      List.pairwise_cons.2 ⟨fun d hd => .inl (hin d hd), ihb ho.ready⟩
    refine List.pairwise_append.2 ⟨hfirst, ihr hc.ready, fun c hmem d hd => .inr ?_⟩
    rcases List.mem_cons.1 hmem with rfl | hmem
    · exact hbehind d hd
    · exact (hbehind d hd).of_within (hin c hmem)
        (placed_loop (a := a) hs ho (body.onward ho.ready) hc (rest.onward hc.ready)).ordered

/-- A call in a body knows the loop around it, which is the innermost one. -/
theorem nested (h : Writes ok a scope s cs answer t) (hs : s.Ready) : ∀ c ∈ cs, c.Knows a cs := by
  induction h with
  | done => simp
  | idle hi _ _ ih => exact ih (hi.onward hs).ready
  | inst _ _ ha _ ih => exact ih (ha.onward hs).ready
  | @loop a scope s s₁ s₂ s₃ t start bound step l m inner after answer' answer
      _ _ _ ho body hc rest ihb ihr =>
    let own : Call := ⟨m, start, bound, step, a⟩
    have hm := (placed_loop (a := a) hs ho (body.onward ho.ready) hc (rest.onward hc.ready)).ordered
    have hinner : ∀ d ∈ inner, d.made.Ordered := fun d hd => (body.placed ho.ready d hd).ordered
    have hafter : ∀ d ∈ after, d.made.Ordered := fun d hd => (rest.placed hc.ready d hd).ordered
    have hin := body.within ho hc
    have hbehind := rest.behind hc
    have hfirst : ∀ c ∈ own :: inner, c.made.Ordered := List.forall_mem_cons.2 ⟨hm, hinner⟩
    -- nothing before or after a loop is around it
    have hbehind' : ∀ c ∈ own :: inner, ∀ d ∈ after, d.made.Behind c.made := by
      intro c hmem d hd
      rcases List.mem_cons.1 hmem with rfl | hmem
      · exact hbehind d hd
      · exact (hbehind d hd).of_within (hin c hmem) hm
    have hlate : ∀ c ∈ own :: inner, ∀ d ∈ after, ¬ c.made.Within d.made := fun c hmem d hd =>
      (hbehind' c hmem d hd).not_within (hafter d hd) (hfirst c hmem)
    have hearly : ∀ c ∈ after, ∀ d ∈ own :: inner, ¬ c.made.Within d.made := fun c hmem d hd =>
      (hbehind' d hd c hmem).not_within' (hafter c hmem) (hfirst d hd)
    have hown : own.Knows a (own :: inner) := by
      refine .inl ⟨rfl, List.forall_mem_cons.2 ⟨hm.not_within, fun d hd => ?_⟩⟩
      exact (hin d hd).not_within (hinner d hd) hm
    intro c hmem
    rcases List.mem_append.1 hmem with hmem | hmem
    · have hknows : c.Knows a (own :: inner) := by
        rcases List.mem_cons.1 hmem with rfl | hmem
        · exact hown
        · exact (ihb ho.ready c hmem).inside hin hmem
      exact hknows.more (List.subset_append_left ..) fun d hd =>
        (List.mem_append.1 hd).imp_right (hlate c hmem d)
    · exact (ihr hc.ready c hmem).more (List.subset_append_right ..) fun d hd =>
        (List.mem_append.1 hd).symm.imp_right (hearly c hmem d)

theorem new_block (ho : Opens s start bound step l s₁) (hc : Closes s₂ l m s₃)
    (hb : s.func.blocks.size ≤ b.index) :
    b = m.header ∨ (b = s₁.current ∨ s₁.func.blocks.size ≤ b.index) ∧
        b.index < s₂.func.blocks.size ∨
      b = m.latch ∨ b = s₃.current ∨ s₃.func.blocks.size ≤ b.index := by
  have hsize₁ := ho.size
  have hsize₃ := hc.size
  rw [hc.result, ho.header, ho.current, hc.current]
  simp only [BlockId.eq_mk]
  omega

theorem mem_sources (h : Writes ok a scope s cs answer t) (hs : s.Ready)
    (hb : b = s.current ∨ s.func.blocks.size ≤ b.index) (hlt : b.index < t.func.blocks.size) :
    b = t.current ∨ ∃ c ∈ cs, b ∈ c.made.sources := by
  induction h with
  | done =>
    rcases hb with hb | hb
    · exact .inl hb
    · omega
  | idle hi _ _ ih => exact ih (hi.onward hs).ready (by rwa [hi.current, hi.size]) hlt
  | inst _ _ ha _ ih => exact ih (ha.onward hs).ready (by rwa [ha.current, ha.size]) hlt
  | @loop a scope s s₁ s₂ s₃ t start bound step l m inner after answer' answer
      _ _ _ ho body hc rest ihb ihr =>
    let all := (⟨m, start, bound, step, a⟩ : Call) :: inner ++ after
    have hown : b ∈ m.sources → b = t.current ∨ ∃ d ∈ all, b ∈ d.made.sources :=
      fun hm => .inr ⟨_, List.mem_cons_self .., hm⟩
    rcases hb with rfl | hb
    · refine hown ?_
      rw [hc.result, ho.preheader]
      exact List.mem_cons_self ..
    rcases new_block ho hc hb with rfl | ⟨hin, hin'⟩ | rfl | hin
    · exact hown (by simp [CountedLoop.sources])
    · rcases ihb ho.ready hin hin' with rfl | ⟨d, hd, hm⟩
      · exact hown (by simp [CountedLoop.sources, hc.result])
      · exact .inr ⟨d, List.mem_append_left _ (List.mem_cons_of_mem _ hd), hm⟩
    · exact hown (by simp [CountedLoop.sources])
    · exact (ihr hc.ready hin hlt).imp_right fun ⟨d, hd, hm⟩ =>
        ⟨d, List.mem_append_right _ hd, hm⟩

theorem mem_targets (h : Writes ok a scope s cs answer t) (hs : s.Ready)
    (hb : s.func.blocks.size ≤ b.index) (hlt : b.index < t.func.blocks.size) :
    ∃ c ∈ cs, b ∈ c.made.targets := by
  induction h with
  | done => omega
  | idle hi _ _ ih => exact ih (hi.onward hs).ready (by rwa [hi.size]) hlt
  | inst _ _ ha _ ih => exact ih (ha.onward hs).ready (by rwa [ha.size]) hlt
  | @loop a scope s s₁ s₂ s₃ t start bound step l m inner after answer' answer
      _ _ _ ho body hc rest ihb ihr =>
    let all := (⟨m, start, bound, step, a⟩ : Call) :: inner ++ after
    have hown : b ∈ m.targets → ∃ d ∈ all, b ∈ d.made.targets :=
      fun hm => ⟨_, List.mem_cons_self .., hm⟩
    rcases new_block ho hc hb with rfl | ⟨rfl | hin, hin'⟩ | rfl | rfl | hin
    · exact hown (by simp [CountedLoop.targets])
    · exact hown (by simp [CountedLoop.targets, hc.result, ho.current, ho.bodyHead])
    · obtain ⟨d, hd, hm⟩ := ihb ho.ready hin hin'
      exact ⟨d, List.mem_append_left _ (List.mem_cons_of_mem _ hd), hm⟩
    · exact hown (by simp [CountedLoop.targets])
    · exact hown (by simp [CountedLoop.targets, hc.result, hc.current])
    · obtain ⟨d, hd, hm⟩ := ihr hc.ready hin hlt
      exact ⟨d, List.mem_append_right _ hd, hm⟩

end Writes

end LoopFusion
