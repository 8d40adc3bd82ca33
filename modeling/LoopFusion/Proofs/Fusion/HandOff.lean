import LoopFusion.Proofs.Fusion.Pair
import LoopFusion.Proofs.Symbolic.Stays

/-!
From one loop into the next. The block between the loops computes nothing that both of them know as
a value from before, so such values are the same in both, and with them whatever the engine says of
the two loops in the same words: how often they run, and what their induction variables are.
-/

namespace LoopFusion

open Relation LoopFusion.Flow

namespace Checker

variable {c : Checker} {b : Loop} {g : BlockId} {i : InstId}

theorem handsOff_unguarded (hg : b.guard? = none) (h : c.handsOff b g) :
    (c.func.body g).length = 1 := by
  simp only [handsOff, hg, Option.isSome_none, Bool.false_eq_true, if_false,
    decide_eq_true_eq] at h
  exact h

theorem handsOff_guarded (hg : b.guard? = some g) (h : c.handsOff b g) :
    (c.func.body g).length ≤ 2 ∧ ∀ i ∈ c.func.body g, c.func.hasResult i →
      ∃ p lhs rhs, c.func.op? i = some (.compare p lhs rhs) := by
  simp only [handsOff, hg, Option.isSome_some, if_true, Bool.and_eq_true, decide_eq_true_eq] at h
  refine ⟨h.1, fun i hi hres => ?_⟩
  have hop := List.all_eq_true.1 h.2 i hi
  split at hop
  case h_1 p lhs rhs heq => exact ⟨p, lhs, rhs, heq⟩
  case h_2 heq =>
    rw [Func.hasResult, heq] at hres
    cases hres
  case h_3 => cases hop

end Checker

/-- In a block of at most two instructions a comparison reads nothing of the same block. -/
theorem Func.WellFormed.operand_not_mem {f : Func} {e g y : BlockId} (hw : f.WellFormed e)
    (hy : f.Edge g y) (hlen : (f.body g).length ≤ 2) {i j : InstId} {p : Comparison}
    {lhs rhs : Value} (hi : i ∈ f.body g) (hop : f.op? i = some (.compare p lhs rhs))
    (hj : .inst j ∈ (Operation.compare p lhs rhs).operands) : j ∉ f.body g := by
  intro hjg
  obtain ⟨k, hk⟩ := List.mem_iff_getElem?.1 hi
  obtain ⟨-, db, dk, hplace, hcond⟩ := hw.uses g hy.1 k i hk _ hop Bool.false_ne_true _ hj
  obtain ⟨hdb, hjd⟩ := mem_of_placeOf? hplace
  rw [if_pos (hw.block_unique hy.1 hdb hjg hjd)] at hcond
  have hlt := (List.getElem?_eq_some_iff.1 hk).1
  -- so the comparison is the last instruction, where the terminator is
  obtain ⟨op, hexit, -⟩ := Func.mem_successors.1 hy.2
  obtain ⟨t, hlast, hopt, hterm⟩ := exitOp?_eq_some hexit
  rw [List.getLast?_eq_getElem?, show (f.body g).length - 1 = k by omega, hk] at hlast
  obtain rfl := Option.some.inj hlast
  obtain rfl := Option.some.inj (hop.symm.trans hopt)
  cases hterm

/-- Two loops inside the same loop, the second entered from where the first is left. -/
structure Checker.Adjoining (f : Func) (keep : Bool) (a b : Loop) : Prop where
  first : a ∈ f.forest.loops
  second : b ∈ f.forest.loops
  ne : a ≠ b
  siblings : a.parent? = b.parent?
  shapeFirst : (builtIn (.ofFunc f) keep).Shaped a
  shapeSecond : (builtIn (.ofFunc f) keep).Shaped b
  meets : (builtIn (.ofFunc f) keep).Meets a b

namespace Func.Run

variable {f : Func} {e d : BlockId} {a b : Loop} {i : InstId} {keep : Bool} {args : List Int}
  {mem : Memory} {r : f.Run args mem} {m n m' n' k : Nat} {v : Value}

/-- From the `n`-th visit control goes to the `m`-th through the preheader and the guard only. -/
structure HandsOver (r : f.Run args mem) (b : Loop) (n m : Nat) : Prop where
  lt : n < m
  between : ∀ k, n < k → k < m → b.preheader? = some (r.block k) ∨ b.guard? = some (r.block k)

/-- Control goes through both loops, one right after the other. -/
structure Through (r : f.Run args mem) (e : BlockId) (a b : Loop) (m n m' n' : Nat) : Prop where
  first : r.Stay e a.header m n
  across : r.HandsOver b n m'
  second : r.Stay e b.header m' n'

namespace Through

variable (ht : r.Through e a b m n m' n')

include ht

theorem le : m ≤ m' := ht.first.le.trans ht.across.lt.le

theorem on_first (hk : k ≤ n) : r.On k := (on_of_lt ht.first.lt).of_le hk

theorem on_second (hk : k ≤ n') : r.On k := (on_of_lt ht.second.lt).of_le hk

variable (hw : f.WellFormed e) (hab : Checker.Adjoining f keep a b)

include hw hab

theorem header : r.block m' = b.header := ht.second.header hw hab.second

/-- What is computed neither in the first loop nor on the way to the second stays what it was. -/
theorem env_over (hd : d ∈ f.layout) (hi : i ∈ f.body d) (hout : ¬ f.InLoop e a.header d)
    (hne : d ≠ b.header) (hpre : b.preheader? ≠ some d) (hg : b.guard? ≠ some d) :
    r.env m' i = r.env m i := by
  refine env_eq hw hd hi (ht.on_second ht.second.le) ht.le fun j hmj hjm hjd => ?_
  by_cases hjn : j ≤ n
  · exact hout (hjd ▸ ht.first.within j hmj.le hjn)
  rcases Nat.lt_or_eq_of_le hjm with hjm | rfl
  · have hway := ht.across.between j (by omega) hjm
    rw [hjd] at hway
    exact hway.elim hpre hg
  · exact hne (hjd.symm.trans (ht.header hw hab))

omit ht in
theorem exists_guards (hg : b.guard? = some d) :
    ∃ pre, b.preheader? = some pre ∧ f.Guards e b pre d := by
  obtain ⟨pre, hpre, -⟩ := Option.bind_eq_some_iff.1 ((LoopForest.guard?_eq hab.second).symm.trans hg)
  obtain ⟨exit, hexit, -⟩ := hab.shapeSecond.exit
  exact ⟨pre, hpre, LoopForest.guards hw.inArena hw.entry hab.second hexit hpre hg⟩

omit ht in
theorem not_preheader (hi : i ∈ f.body d) (hres : f.hasResult i) (hda : Dom f.Edge e d a.header)
    (hout : ¬ f.InLoop e a.header d) : b.preheader? ≠ some d := by
  have hf := hw.inArena
  have he := hw.entry
  intro hpre
  obtain ⟨entry, hentry, -, hoff⟩ := hab.meets.entry
  cases hg : b.guard? with
  | none =>
    rw [Loop.entry?, hg, hpre] at hentry
    obtain rfl := Option.some.inj hentry
    obtain ⟨j, hj⟩ := List.length_eq_one_iff.1 (Checker.handsOff_unguarded hg hoff)
    have hedge := ((LoopForest.preheader_spec hf he hab.second hpre).2 b.header).2 rfl
    obtain ⟨op, hexit, -⟩ := Func.mem_successors.1 hedge.2
    obtain ⟨t, hlast, hopt, hterm⟩ := exitOp?_eq_some hexit
    change f.body d = [j] at hj
    rw [hj] at hi hlast
    rw [List.getLast?_singleton] at hlast
    obtain rfl := List.mem_singleton.1 hi
    obtain rfl := Option.some.inj hlast
    rw [Func.hasResult, hopt, Option.any_some, Operation.hasResult, hterm, Bool.not_true,
      Bool.and_false] at hres
    cases hres
  | some g =>
    obtain ⟨pre', hpre', hguards⟩ := exists_guards hw hab hg
    obtain rfl := Option.some.inj (hpre.symm.trans hpre')
    refine hguards.not_dom_preheader hw hab.second hpre
      (LoopForest.not_inLoop_sibling hf he hab.first hab.second hab.siblings hab.ne)
      (fun heq => hout (heq ▸ LoopForest.headed hf he hab.first)) (fun t ht => ?_) hda
    obtain ⟨exit, -, cond, t', e', hop, -⟩ := hab.shapeFirst.exit
    have := hop.symm.trans ht
    cases this

omit ht hw in
/-- All that a guard of the second loop computes is its test. -/
theorem guard_tests (hg : b.guard? = some d) : (f.body d).length ≤ 2 ∧ ∀ i ∈ f.body d,
    f.hasResult i → ∃ p lhs rhs, f.op? i = some (.compare p lhs rhs) := by
  obtain ⟨entry, hentry, -, hoff⟩ := hab.meets.entry
  rw [Loop.entry?, hg] at hentry
  obtain rfl := Option.some.inj hentry
  exact Checker.handsOff_guarded hg hoff

/-- What the guard's test reads is computed above the guard. -/
theorem env_tested {p : Comparison} {lhs rhs : Value} {c : BlockId} {j : InstId}
    (hg : b.guard? = some d) (hi : i ∈ f.body d) (hop : f.op? i = some (.compare p lhs rhs))
    (hj : .inst j ∈ (Operation.compare p lhs rhs).operands) (hc : c ∈ f.layout)
    (hjc : j ∈ f.body c) (hcd : Dom f.Edge e c d) (hda : Dom f.Edge e d a.header)
    (hout : ¬ f.InLoop e a.header d) (hdb : Dom f.Edge e d b.header) : r.env m' j = r.env m j := by
  obtain ⟨pre, hpre, hguards⟩ := exists_guards hw hab hg
  have hne : c ≠ d := by
    rintro rfl
    exact hw.operand_not_mem hguards.edge (guard_tests hab hg).1 hi hop hj hjc
  refine ht.env_over hw hab hc hjc (fun hin => ?_) ?_ (fun h => ?_) fun h => ?_
  · exact hout ((hin.dom.trans hcd).antisymm hda ▸ hin.header)
  · rintro rfl
    exact hne (hcd.antisymm hdb)
  · obtain rfl := Option.some.inj (hpre.symm.trans h)
    exact hne (hcd.antisymm (hguards.dom hw hcd.reach_left))
  · exact hne (Option.some.inj (hg.symm.trans h)).symm

theorem env_guard (hg : b.guard? = some d) (hi : i ∈ f.body d) (hres : f.hasResult i)
    (hda : Dom f.Edge e d a.header) (hout : ¬ f.InLoop e a.header d)
    (hdb : Dom f.Edge e d b.header) : r.env m' i = r.env m i := by
  obtain ⟨p, lhs, rhs, hop⟩ := (guard_tests hab hg).2 i hi hres
  obtain ⟨pre, -, hguards⟩ := exists_guards hw hab hg
  have hgl : d ∈ f.layout := hguards.edge.1
  have hoperand : ∀ w ∈ (Operation.compare p lhs rhs).operands,
      w.eval args (r.env m') = w.eval args (r.env m) := by
    intro w hmem
    refine Value.eval_congr ?_
    rintro j rfl
    obtain ⟨-, c, hc, hj, hcd⟩ :=
      hw.defined_operand hgl hda.reach_left hi hop Bool.false_ne_true hmem
    exact ht.env_tested hw hab hg hi hop hmem hc hj hcd hda hout hdb
  have hdm : Dom f.Edge e d (r.block m) := hda.trans (ht.first.within m le_rfl ht.first.le).dom
  have hdm' : Dom f.Edge e d (r.block m') := (ht.header hw hab).symm ▸ hdb
  have hfold := Operation.fold?_congr hoperand
  rw [env_fold? hw (ht.on_second ht.second.le) hgl hi hop hdm' rfl,
    env_fold? hw (ht.on_first ht.first.le) hgl hi hop hdm rfl]
  exact Option.some.inj hfold

theorem env_outside (hd : d ∈ f.layout) (hi : i ∈ f.body d) (hres : f.hasResult i)
    (houta : ¬ f.InLoop e a.header d) (houtb : ¬ f.InLoop e b.header d)
    (hda : Dom f.Edge e d a.header) (hdb : Dom f.Edge e d b.header) :
    r.env m' i = r.env m i := by
  by_cases hg : b.guard? = some d
  · exact ht.env_guard hw hab hg hi hres hda houta hdb
  · have hpre := not_preheader hw hab hi hres hda houta
    refine ht.env_over hw hab hd hi houta (fun h => houtb ?_) hpre hg
    exact h ▸ LoopForest.headed hw.inArena hw.entry hab.second

theorem eval_fixed (hva : f.Fixed e (some a.id) (r.block m) v)
    (hvb : f.Fixed e (some b.id) (r.block m') v) :
    v.eval args (r.env m') = v.eval args (r.env m) := by
  refine Value.eval_congr ?_
  rintro i rfl
  obtain ⟨d, hd, hi, hda⟩ := hva.defined.ahead
  obtain ⟨d', hd', hi', hdb⟩ := hvb.defined.ahead
  obtain rfl := hw.block_unique hd' hd hi' hi
  have houta := not_inLoop_of_before hw hab.first (hva.before i rfl d hd hi)
  have houtb := not_inLoop_of_before hw hab.second (hvb.before i rfl d hd hi)
  exact ht.env_outside hw hab hd hi hva.defined.usable.2 houta houtb
    ((ht.first.within m le_rfl ht.first.le).dom_of_outside hda houta) (ht.header hw hab ▸ hdb)

theorem exists_agrees (hnames : f.DistinctNames) (σ : SymbolTable) :
    ∃ ρ, r.Agrees e σ ρ (some a.id) m ∧ r.Agrees e σ ρ (some b.id) m' := by
  obtain ⟨ρ, hρ⟩ := hnames.exists_valuation (σ := σ)
    (fun v hv => mem_values hv.defined.usable hv.named)
    (fun v hv => mem_values hv.defined.usable hv.named)
    fun v hva hvb => (ht.eval_fixed hw hab hva hvb).symm
  exact ⟨ρ, fun v s hv hs => (hρ v s hs).1 hv, fun v s hv hs => (hρ v s hs).2 hv⟩

end Through

/-! What the counters of the two loops go through. -/

/-- The values of `i` on the visits to `d`, from the `m`-th visit to the `n`-th. -/
def history (r : f.Run args mem) (d : BlockId) (i : InstId) (m n : Nat) : List Int :=
  ((List.range' m (n + 1 - m)).filter (r.block · = d)).map (r.env · i)

theorem history_succ {d : BlockId} {i : InstId} (hmn : m ≤ n) : r.history d i m (n + 1) =
    r.history d i m n ++ if r.block (n + 1) = d then [r.env (n + 1) i] else [] := by
  have hlast : m + (n + 1 - m) = n + 1 := by omega
  rw [history, history, Nat.succ_sub (by omega), List.range'_1_concat, hlast, List.filter_append,
    List.map_append]
  by_cases hb : r.block (n + 1) = d <;> simp [hb]

theorem Stay.env_phi {l : Loop} {iv : InductionVariable} (hw : f.WellFormed e)
    (hl : l ∈ f.forest.loops) (hiv : l.iv? = some iv) (h : r.Stay e l.header m n) (hmk : m ≤ k)
    (hkn : k ≤ n) :
    r.env k iv.phi = iv.start.eval args (r.env m) + iv.step * r.laps l m k := by
  obtain ⟨pre, latch, hc⟩ := LoopForest.exists_counting hw hl hiv
  have hk : r.On k := (on_of_lt h.lt).of_le hkn
  rw [hc.env_phi hw hl hk (h.within k hmk hkn), h.round_eq hw hl hmk hkn,
    hc.eval_start hw hk hmk fun i h₁ h₂ => h.within i h₁ (h₂.trans hkn)]

theorem Stay.history_eq {l : Loop} {iv : InductionVariable} (hw : f.WellFormed e)
    (hl : l ∈ f.forest.loops) (hiv : l.iv? = some iv) (h : r.Stay e l.header m n) (hmk : m ≤ k)
    (hkn : k ≤ n) : r.history l.header iv.phi m k = (List.range (r.laps l m k + 1)).map
      fun j : Nat => iv.start.eval args (r.env m) + iv.step * j := by
  have hphi := fun j (hmj : m ≤ j) (hjn : j ≤ n) => h.env_phi hw hl hiv hmj hjn
  induction k, hmk using Nat.le_induction with
  | base =>
    have hone : m + 1 - m = 1 := by omega
    rw [history, hone, laps_self]
    simp [h.header hw hl, hphi m le_rfl h.le, laps_self]
  | succ k hmk ih =>
    have hc := (LoopForest.contains_iff hw.inArena hw.entry hl).2 (h.within k hmk (by omega))
    rw [history_succ hmk, ih (by omega), laps_succ hmk]
    by_cases hb : r.block (k + 1) = l.header
    · rw [if_pos hb, if_pos ⟨hc, hb⟩, List.range_succ (n := _ + 1), List.map_append,
        hphi _ (by omega) hkn, laps_succ hmk, if_pos ⟨hc, hb⟩]
      rfl
    · rw [if_neg hb, if_neg fun h => hb h.2, List.append_nil, add_zero]

end Func.Run

/-- The check passes when it is asked for after any questions to the engine. -/
def Check.Passes (f : Func) (c : Check Unit) : Prop :=
  ∃ s : Session, s.Honest f ∧ (c.verdict s).1 = .ok ()

theorem Check.Passes.yields {f : Func} {c : Check Unit} (h : c.Passes f) :
    ∃ s s', s.Honest f ∧ c.Yields s () s' := by
  obtain ⟨s, hs, h⟩ := h
  exact ⟨s, _, hs, Prod.ext h rfl⟩

theorem Check.passes_of_isOk {f : Func} {c : Check Unit} (h : (c.verdict .start).1.isOk) :
    c.Passes f :=
  ⟨.start, .fresh rfl, eq_ok_of_isOk h⟩

namespace Checker

open Check Func Run

variable {f : Func} {e : BlockId} {a b : Loop} {keep : Bool} {args : List Int} {mem : Memory}
  {m n m' n' : Nat} {iva ivb : InductionVariable}

section

variable (hw : f.WellFormed e) (hab : Adjoining f keep a b) {r : f.Run args mem} {s s' : Session}
  (hs : s.Honest f)

include hw hab hs

theorem sized_of_checkTripCounts
    (h : ((builtIn (.ofFunc f) keep).checkTripCounts a b).Yields s () s') :
    s'.Honest f ∧ ∃ p, r.Sized e s'.symbols a p ∧ r.Sized e s'.symbols b p := by
  obtain ⟨p, s₁, hpa, hpb⟩ := checkTripCounts_yields h
  have hgrow := (Describe.grows_tripCount f f.forest b.id).of_eq hpb
  obtain ⟨hsizeA, hs₁⟩ := (asks_tripCount (r := r) hw hab.first).of_eq hs hpa hgrow
  obtain ⟨hsizeB, hs'⟩ :=
    (asks_tripCount (r := r) hw hab.second).of_eq hs₁ hpb (SymbolTable.le_refl _)
  exact ⟨hs', p, (hsizeA p rfl).2, (hsizeB p rfl).2⟩

omit hab in
theorem right_of_checkVariables
    (h : ((builtIn (.ofFunc f) keep).checkVariables a b).Yields s () s') :
    s'.Honest f ∧ ∃ iva ivb p, a.iv? = some iva ∧ b.iv? = some ivb ∧ iva.step = ivb.step ∧
      r.Right e s'.symbols (some a.id) iva.start (.invariant p) ∧
      r.Right e s'.symbols (some b.id) ivb.start (.invariant p) := by
  obtain ⟨iva, ivb, p, s₁, hiva, hivb, hstep, hpa, hpb⟩ := checkVariables_yields h
  have hgrow := (Describe.grows_value f f.forest _ ivb.start (some b.id)).of_eq hpb
  obtain ⟨hrightA, hs₁⟩ := (answers_value (r := r) hw _ _ _).of_eq hs hpa hgrow
  obtain ⟨hrightB, hs'⟩ := (answers_value (r := r) hw _ _ _).of_eq hs₁ hpb (SymbolTable.le_refl _)
  exact ⟨hs', iva, ivb, p, hiva, hivb, hstep, hrightA, hrightB⟩

variable (hnames : f.DistinctNames) (ht : r.Through e a b m n m' n')

include hnames ht

theorem laps_agree (h : ((builtIn (.ofFunc f) keep).checkTripCounts a b).Yields s () s') :
    r.laps a m n = r.laps b m' n' := by
  obtain ⟨-, p, hsizeA, hsizeB⟩ := sized_of_checkTripCounts (r := r) hw hab hs h
  obtain ⟨ρ, hρa, hρb⟩ := ht.exists_agrees hw hab hnames s'.symbols
  have heqA := hsizeA.laps_eq hw hab.first ht.first hρa
  have heqB := hsizeB.laps_eq hw hab.second ht.second hρb
  exact_mod_cast heqA.trans heqB.symm

theorem starts_agree (h : ((builtIn (.ofFunc f) keep).checkVariables a b).Yields s () s') :
    ∃ iva ivb, a.iv? = some iva ∧ b.iv? = some ivb ∧ iva.step = ivb.step ∧
      iva.start.eval args (r.env m) = ivb.start.eval args (r.env m') := by
  obtain ⟨-, iva, ivb, p, hiva, hivb, hstep, hrightA, hrightB⟩ :=
    right_of_checkVariables (r := r) hw hs h
  obtain ⟨ρ, hρa, hρb⟩ := ht.exists_agrees hw hab hnames s'.symbols
  have hinA := ht.first.within m le_rfl ht.first.le
  have hinB := ht.second.within m' le_rfl ht.second.le
  obtain ⟨_, _, hca⟩ := LoopForest.exists_counting hw hab.first hiva
  obtain ⟨_, _, hcb⟩ := LoopForest.exists_counting hw hab.second hivb
  have heqA := hrightA m ρ (ht.on_first ht.first.le) ((inScope_some hab.first).2 hinA)
    ((hca.start_defined hw).trans ((hca.dom_pre hw).trans hinA.dom)) hρa
  have heqB := hrightB m' ρ (ht.on_second ht.second.le) ((inScope_some hab.second).2 hinB)
    ((hcb.start_defined hw).trans ((hcb.dom_pre hw).trans hinB.dom)) hρb
  exact ⟨iva, ivb, hiva, hivb, hstep, heqA.trans heqB.symm⟩

end

/-- Two loops run one after the other as often, with the same values of their counters. -/
theorem counters_agree (hv : f.verify = .ok ()) (he : f.entry? = some e) (hnames : f.DistinctNames)
    (ha : a ∈ f.forest.loops) (hb : b ∈ f.forest.loops) (hne : a ≠ b) (hpar : a.parent? = b.parent?)
    (hshapeA : ((builtIn (.ofFunc f) keep).checkShape a).Passes f)
    (hshapeB : ((builtIn (.ofFunc f) keep).checkShape b).Passes f)
    (hadjacent : ((builtIn (.ofFunc f) keep).checkAdjacent a b).Passes f)
    (hcounts : ((builtIn (.ofFunc f) keep).checkTripCounts a b).Passes f)
    (hvariables : ((builtIn (.ofFunc f) keep).checkVariables a b).Passes f)
    (hiva : a.iv? = some iva) (hivb : b.iv? = some ivb) (r : f.Run args mem)
    (hA : r.Stay e a.header m n) (hover : r.HandsOver b n m') (hB : r.Stay e b.header m' n') :
    r.laps a m n = r.laps b m' n' ∧
      r.history a.header iva.phi m n = r.history b.header ivb.phi m' n' ∧
      r.env n iva.phi = r.env n' ivb.phi := by
  obtain ⟨e', hw⟩ := wellFormed_of_verify hv
  obtain rfl := Option.some.inj (he.symm.trans hw.entry)
  obtain ⟨_, _, -, hyields⟩ := hshapeA.yields
  have hsa := (checkShape_yields.1 hyields).1
  obtain ⟨_, _, -, hyields⟩ := hshapeB.yields
  have hsb := (checkShape_yields.1 hyields).1
  obtain ⟨_, _, -, hyields⟩ := hadjacent.yields
  have hab : Adjoining f keep a b := ⟨ha, hb, hne, hpar, hsa, hsb, (checkAdjacent_yields.1 hyields).1⟩
  have ht : r.Through e a b m n m' n' := ⟨hA, hover, hB⟩
  obtain ⟨_, _, hs, hyields⟩ := hcounts.yields
  have hlaps := laps_agree hw hab hs hnames ht hyields
  obtain ⟨_, _, hs, hyields⟩ := hvariables.yields
  obtain ⟨iva', ivb', hiva', hivb', hstep, hstart⟩ := starts_agree hw hab hs hnames ht hyields
  obtain rfl := Option.some.inj (hiva.symm.trans hiva')
  obtain rfl := Option.some.inj (hivb.symm.trans hivb')
  refine ⟨hlaps, ?_, ?_⟩
  · rw [hA.history_eq hw ha hiva hA.le le_rfl, hB.history_eq hw hb hivb hB.le le_rfl, hlaps, hstep,
      hstart]
  · rw [hA.env_phi hw ha hiva hA.le le_rfl, hB.env_phi hw hb hivb hB.le le_rfl, hlaps, hstep,
      hstart]

theorem counters_agree_twoLoops : ∃ r : twoLoops.Run [0, 100] fun _ => 0,
    r.laps .first 1 13 = r.laps .second 15 27 ∧
      r.history Loop.first.header ⟨1⟩ 1 13 = r.history Loop.second.header ⟨10⟩ 15 27 ∧
      r.env 13 ⟨1⟩ = r.env 27 ⟨10⟩ := by
  obtain ⟨e, hw⟩ := wellFormed_of_verify verify_twoLoops
  obtain ⟨r, hlast⟩ := exists_run_of_blockAt?
    (show twoLoops.blockAt? [0, 100] (fun _ => 0) 28 = some ⟨8⟩ by decide +kernel)
  obtain ⟨iva, hiva, hphiA⟩ := Option.map_eq_some_iff.1
    (show Loop.first.iv?.map (·.phi) = some ⟨1⟩ by decide +kernel)
  obtain ⟨ivb, hivb, hphiB⟩ := Option.map_eq_some_iff.1
    (show Loop.second.iv?.map (·.phi) = some ⟨10⟩ by decide +kernel)
  have hbetween : r.block 14 = ⟨4⟩ := Option.some.inj ((r.blockAt?_eq (by omega)).symm.trans
    (by decide +kernel))
  have hover : r.HandsOver .second 13 15 := by
    refine ⟨by omega, fun k h₁ h₂ => .inl ?_⟩
    obtain rfl : k = 14 := by omega
    rw [hbetween]
    decide +kernel
  have hA : r.Stay e Loop.first.header 1 13 := stay_of_visits? hw Loop.first_mem (by omega)
    (by omega) (by decide +kernel) (by decide +kernel) (by decide +kernel)
  have hB : r.Stay e Loop.second.header 15 27 := stay_of_visits? hw Loop.second_mem (by omega)
    (by omega) (by decide +kernel) (by decide +kernel) (by decide +kernel)
  have hshape : ((builtIn (.ofFunc twoLoops) true).checkShape .first).Passes twoLoops :=
    passes_of_isOk (by decide +kernel)
  have hagree := counters_agree verify_twoLoops hw.entry (by decide +kernel) Loop.first_mem
    Loop.second_mem (fun heq => absurd (congrArg Loop.header heq) (by decide +kernel))
    (by decide +kernel) hshape (passes_of_isOk (by decide +kernel))
    (passes_of_isOk (by decide +kernel)) (passes_of_isOk (by decide +kernel))
    (passes_of_isOk (by decide +kernel)) hiva hivb r hA hover hB
  rw [hphiA, hphiB] at hagree
  exact ⟨r, hagree⟩

end Checker

end LoopFusion
