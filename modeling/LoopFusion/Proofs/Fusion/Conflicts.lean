import Mathlib.Tactic.Linarith
import LoopFusion.Proofs.Fusion.HandOff
import LoopFusion.Proofs.Inquiry
import LoopFusion.Proofs.Memory.Independence

/-!
Accesses of two loops that run one after the other. Where both touch one address and one of them is
a store, the first loop is in no later a round than the second.
-/

namespace LoopFusion

open Relation LoopFusion.Flow

theorem Poly.holds_of_proves {ρ : Symbol → Int} {p q : Poly} (h : p.proves .sge q) :
    q.eval ρ ≤ p.eval ρ := by
  obtain ⟨c, hc, h⟩ := (Option.any_eq_true ..).1 h
  obtain ⟨d, hd, hc⟩ := Option.bind_eq_some_iff.1 hc
  have heval := Poly.eval_sub (ρ := ρ) hd
  rw [Poly.eval_of_const? hc] at heval
  have : 0 ≤ c := of_decide_eq_true h
  omega

theorem Poly.eval_ne_zero {ρ : Symbol → Int} {p : Poly} (h : p.isNonZero) : p.eval ρ ≠ 0 := by
  obtain ⟨c, hc, h⟩ := (Option.any_eq_true ..).1 h
  rw [Poly.eval_of_const? hc]
  exact of_decide_eq_true h

theorem Oracle.answer_ensures {f : Func} {t : LoopForest} {e : Engine} {x y : InstId} {same : Bool} :
    Inquiry.Ensures (answer f t e x y same) fun dep? => ∀ dep, dep? = some dep →
      dep.src = x ∧ dep.dst = y ∧ (f.writesMemory x ∨ f.writesMemory y → dep.kind ≠ .input) := by
  have hkind : ∀ {opx opy}, f.op? x = some opx → f.op? y = some opy →
      f.writesMemory x ∨ f.writesMemory y →
        DependenceKind.ofWrites opx.writesMemory opy.writesMemory ≠ .input := by
    intro opx opy hx hy
    rw [Func.writesMemory, Func.writesMemory, hx, hy, Option.any_some, Option.any_some]
    cases opx.writesMemory <;> cases opy.writesMemory <;> simp [DependenceKind.ofWrites]
  have hway := way_answer f t e x y same
  generalize answer f t e x y same = q at hway ⊢
  cases hway with
  | apart => exact Inquiry.ensures_pure (by simp)
  | confused hx hy =>
    apply Inquiry.ensures_pure
    rintro dep ⟨⟩
    exact ⟨rfl, rfl, hkind hx hy⟩
  | compared hx hy =>
    refine Inquiry.ensures_bind fun s? => Inquiry.ensures_bind fun d? => ?_
    split
    · refine Inquiry.ensures_pure fun dep h => ?_
      obtain rfl | ⟨k, -, rfl⟩ := report_eq_some h
      · exact ⟨rfl, rfl, hkind hx hy⟩
      · exact ⟨rfl, rfl, hkind hx hy⟩
    · apply Inquiry.ensures_pure
      rintro dep ⟨⟩
      exact ⟨rfl, rfl, hkind hx hy⟩

namespace Checker

open Func.Run Check

theorem mem_pairs {c : Checker} {a b : Loop} {x y : InstId} (hc : c.keepOutputs)
    (hx : x ∈ a.blocks.flatMap c.func.body) (hy : y ∈ b.blocks.flatMap c.func.body)
    (hax : c.func.accessesMemory x) (hay : c.func.accessesMemory y)
    (hwr : c.func.writesMemory x ∨ c.func.writesMemory y) : (x, y) ∈ c.pairs a b := by
  simp only [pairs, Accesses.ofLoop, hc, if_true, List.mem_append, List.mem_flatMap, List.mem_map,
    List.mem_filter]
  cases hx' : c.func.writesMemory x <;> cases hy' : c.func.writesMemory y <;> simp_all

/-- When two accesses with the same stride are at one address, the distance is a positive multiple of
the rounds between them. -/
theorem eval_scaledDistance {ρ : Symbol → Int} {fl : FlowFacts} {keep : Bool}
    {first second : AffineAccess} {distance : Poly} {i j : Int} (hnz : first.stride.isNonZero)
    (hdist : (builtIn fl keep).scaledDistance? first second = some distance)
    (heq : first.start.eval ρ + first.stride.eval ρ * i =
      second.start.eval ρ + first.stride.eval ρ * j) :
    ∃ n, 0 < n ∧ distance.eval ρ = n * (j - i) := by
  obtain ⟨diff, hdiff, hmul⟩ := Option.bind_eq_some_iff.1 hdist
  refine ⟨_, mul_self_pos.2 (Poly.eval_ne_zero (ρ := ρ) hnz), ?_⟩
  rw [Poly.eval_mul hmul, Poly.eval_sub hdiff,
    show first.start.eval ρ - second.start.eval ρ = first.stride.eval ρ * (j - i) by linarith]
  ring

/-- Of two accesses with the same stride the first, which starts no earlier in the direction of the
stride, is at an address in no later a round. -/
theorem le_of_scaledDistance {ρ : Symbol → Int} {fl : FlowFacts} {keep : Bool}
    {first second : AffineAccess} {distance : Poly} {i j : Int} (hnz : first.stride.isNonZero)
    (hdist : (builtIn fl keep).scaledDistance? first second = some distance)
    (hge : distance.proves .sge .zero) (heq : first.start.eval ρ + first.stride.eval ρ * i =
      second.start.eval ρ + first.stride.eval ρ * j) : i ≤ j := by
  obtain ⟨n, hn, heval⟩ := eval_scaledDistance hnz hdist heq
  have hpos := Poly.holds_of_proves (ρ := ρ) hge
  rw [heval, Poly.eval_zero] at hpos
  have := nonneg_of_mul_nonneg_right hpos hn
  omega

section

variable {f : Func} {e : BlockId} {a b : Loop} {x y : InstId} {s s' : Session} {keep : Bool}
  {args : List Int} {mem : Memory} (hw : f.WellFormed e) (r : f.Run args mem) (hs : s.Honest f)

include hw r hs

theorem honest_depends {dep? : Option Dependence}
    (h : (builtIn (.ofFunc f) keep).oracle.depends x y true s = (dep?, s')) : s'.Honest f :=
  ((asks_answer (r := r) hw x y).of_eq hs h (SymbolTable.le_refl _)).2

theorem honest_resolve {l : LoopId} {p : Option AffineAccess}
    (h : (Engine.ofFunc f f.forest).resolve f x l s = (p, s')) : s'.Honest f :=
  ((asks_resolve (r := r) hw x).of_eq hs h (SymbolTable.le_refl _)).2

theorem honest_checkPair
    (h : ((builtIn (.ofFunc f) keep).checkPair a b (x, y)).Yields s () s') : s'.Honest f := by
  rcases checkPair_yields h with hnone | ⟨dep, s₁, hdep, ⟨-, rfl⟩ | ⟨s₂, hm, hsym, hdist⟩⟩
  · exact honest_depends hw r hs hnone
  · exact honest_depends hw r hs hdep
  · have hs₂ := (honest_depends hw r hs hdep).named hm (hsym ▸ SymbolTable.le_refl _)
    obtain ⟨-, -, _, _, _, s₃, s₄, hfirst, hsecond, -, -, -, -, hm', hsym'⟩ :=
      checkDistance_yields hdist
    exact (honest_resolve hw r (honest_resolve hw r hs₂ hfirst) hsecond).named hm'
      (hsym' ▸ SymbolTable.le_refl _)

end

end Checker

namespace Func.Run

variable {f : Func} {e : BlockId} {a b : Loop} {x y : InstId} {args : List Int} {mem : Memory}
  {r : f.Run args mem} {m n m' n' i j : Nat} {c : Int} {σ : SymbolTable} {s s' : Session}

theorem not_inLoop_of_standing {l l' : Loop} {q d : BlockId} (hw : f.WellFormed e)
    (hl : l ∈ f.forest.loops) (hl' : l' ∈ f.forest.loops) (hpar : l.parent? = l'.parent?)
    (hne : l ≠ l') (hq : f.InLoop e l'.header q) (hx : f.owner? x = some q)
    (hst : Describe.standing f.forest (f.scopeOf? x) d = .before) : ¬ f.InLoop e l.header d := by
  have hf := hw.inArena
  have he := hw.entry
  intro hd
  obtain ⟨p, hp, heq, c, hc, hcont, -⟩ := around_of_fixed hw hx hst hd
  obtain rfl := LoopForest.eq_of_header hf he hp hl heq
  obtain rfl := Option.some.inj (hx.symm.trans hc)
  exact LoopForest.disjoint_siblings hf he hl hl' hpar hne
    ((LoopForest.contains_iff hf he hl).1 hcont) hq

namespace Through

variable (hw : f.WellFormed e) (hab : Checker.Adjoining f true a b) (hnames : f.DistinctNames)
  (ht : r.Through e a b m n m' n') (hmi : m ≤ i) (hin : i ≤ n) (hmj : m' ≤ j) (hjn : j ≤ n')

include hw hab hnames ht hmi hin hmj hjn

theorem exists_agrees_accesses (σ : SymbolTable) (hx : f.owner? x = some (r.block i))
    (hy : f.owner? y = some (r.block j)) :
    ∃ ρ, r.Agrees e σ ρ (f.scopeOf? x) i ∧ r.Agrees e σ ρ (f.scopeOf? y) j := by
  have hinA := ht.first.within i hmi hin
  have hinB := ht.second.within j hmj hjn
  have heq : ∀ v, f.Fixed e (f.scopeOf? x) (r.block i) v →
      f.Fixed e (f.scopeOf? y) (r.block j) v → v.eval args (r.env i) = v.eval args (r.env j) := by
    intro v hvx hvy
    refine Value.eval_congr ?_
    rintro t rfl
    obtain ⟨d, hd, hi, hdx⟩ := hvx.defined.ahead
    obtain ⟨d', hd', hi', hdy⟩ := hvy.defined.ahead
    obtain rfl := hw.block_unique hd' hd hi' hi
    have houta := not_inLoop_of_standing hw hab.first hab.second hab.siblings hab.ne hinB hy
      (hvy.before t rfl d hd hi)
    have houtb := not_inLoop_of_standing hw hab.second hab.first hab.siblings.symm hab.ne.symm hinA
      hx (hvx.before t rfl d hd hi)
    calc r.env i t = r.env m t := env_within hw (ht.on_first hin) hmi
          (fun k h₁ h₂ => ht.first.within k h₁ (h₂.trans hin)) hd hi houta
      _ = r.env m' t := (ht.env_outside hw hab hd hi hvx.defined.usable.2 houta houtb
          (hinA.dom_of_outside hdx houta) (hinB.dom_of_outside hdy houtb)).symm
      _ = r.env j t := (env_within hw (ht.on_second hjn) hmj
          (fun k h₁ h₂ => ht.second.within k h₁ (h₂.trans hjn)) hd hi houtb).symm
  obtain ⟨ρ, hρ⟩ := hnames.exists_valuation (σ := σ)
    (fun v hv => mem_values hv.defined.usable hv.named)
    (fun v hv => mem_values hv.defined.usable hv.named) heq
  exact ⟨ρ, fun v s hv hs => (hρ v s hs).1 hv, fun v s hv hs => (hρ v s hs).2 hv⟩

variable (hx : f.Touches args (r.visit i) x c) (hy : f.Touches args (r.visit j) y c)

include hx hy

/-- Accesses without a dependence do not touch the same address. -/
theorem not_touches_of_none (hapart : r.Apart)
    (hbx : ∀ σ ρ, r.Agrees e σ ρ (f.scopeOf? x) i → r.Bounded e σ x i)
    (hby : ∀ σ ρ, r.Agrees e σ ρ (f.scopeOf? y) j → r.Bounded e σ y j)
    (hs : s.Honest f)
    (h : Oracle.answer f f.forest (.ofFunc f f.forest) x y true s = (none, s')) : False := by
  have hi : i ≤ r.last := (ht.on_first hin).le
  have hj : j ≤ r.last := (ht.on_second hjn).le
  obtain ⟨-, hownx, -⟩ := touches_spec hw hi hx
  obtain ⟨-, howny, -⟩ := touches_spec hw hj hy
  have hsep := ((asks_answer (r := r) hw x y).of_eq hs h (SymbolTable.le_refl _)).1 rfl
  obtain ⟨ρ, hρx, hρy⟩ :=
    exists_agrees_accesses hw hab hnames ht hmi hin hmj hjn s'.symbols hownx howny
  obtain ⟨vx, vy, j', k', hvx, hvy, hj', hk', hroots⟩ := hsep.roots_ne hw hi hj hx hy hρx hρy
    (hbx _ _ hρx) (hby _ _ hρy)
  exact hroots (hapart i j hi hj x y c hx hy vx vy j' k' hvx hvy hj' hk')

theorem round_le_of_distance {dep : Dependence} (hs : s.Honest f) (hsrc : dep.src = x)
    (hdst : dep.dst = y)
    (h : ((Checker.builtIn (.ofFunc f) true).checkDistance a b dep).Yields s () s') :
    r.round a i ≤ r.round b j := by
  obtain ⟨-, -, first, second, distance, s₁, s₂, hfirst, hsecond, hnz, hstride, hdist, hge, -, -⟩ :=
    Checker.checkDistance_yields h
  rw [hsrc] at hfirst
  rw [hdst] at hsecond
  have hi := ht.on_first hin
  have hj := ht.on_second hjn
  -- both addresses are recurrences
  have hgrow := (Engine.gathers_resolve f f.forest y b.id).grows.of_eq hsecond
  obtain ⟨hright, hs₁⟩ := (asks_resolve (r := r) hw x).of_eq hs hfirst hgrow
  obtain ⟨vx, hvx, hrightx⟩ := hright first rfl
  obtain ⟨hright, -⟩ := (asks_resolve (r := r) hw y).of_eq hs₁ hsecond (SymbolTable.le_refl _)
  obtain ⟨vy, hvy, hrighty⟩ := hright second rfl
  obtain ⟨ρ, hρa, hρb⟩ := ht.exists_agrees hw hab hnames s₂.symbols
  have hρi := (agrees_within hw hab.first hi hmi
    fun k h₁ h₂ => ht.first.within k h₁ (h₂.trans hin)).1 hρa
  have hρj := (agrees_within hw hab.second hj hmj
    fun k h₁ h₂ => ht.second.within k h₁ (h₂.trans hjn)).1 hρb
  obtain ⟨-, -, ux, hux, hdefx, hvalx⟩ := touches_spec hw hi.le hx
  obtain ⟨-, -, uy, huy, hdefy, hvaly⟩ := touches_spec hw hj.le hy
  obtain rfl := Option.some.inj (hvx.symm.trans hux)
  obtain rfl := Option.some.inj (hvy.symm.trans huy)
  have hcx : c = _ := hvalx.symm.trans
    (hrightx i ρ hi ((inScope_some hab.first).2 (ht.first.within i hmi hin)) hdefx hρi)
  have hcy : c = _ := hvaly.symm.trans
    (hrighty j ρ hj ((inScope_some hab.second).2 (ht.second.within j hmj hjn)) hdefy hρj)
  rw [turn_some hab.first] at hcx
  rw [turn_some hab.second, ← hstride] at hcy
  have := Checker.le_of_scaledDistance hnz hdist hge (hcx.symm.trans hcy)
  omega

/-- Where one of two accesses is a store, the address that they both touch is touched by the first
loop in no later a round than by the second. -/
theorem round_le_of_touches (hapart : r.Apart)
    (hbx : ∀ σ ρ, r.Agrees e σ ρ (f.scopeOf? x) i → r.Bounded e σ x i)
    (hby : ∀ σ ρ, r.Agrees e σ ρ (f.scopeOf? y) j → r.Bounded e σ y j)
    (hwr : f.writesMemory x ∨ f.writesMemory y) (hs : s.Honest f)
    (h : ((Checker.builtIn (.ofFunc f) true).checkDistances a b).Yields s () s') :
    r.round a i ≤ r.round b j := by
  have hmem : ∀ {l : Loop} {z : InstId} {k : Nat}, l ∈ f.forest.loops →
      f.InLoop e l.header (r.block k) → f.Touches args (r.visit k) z c →
      z ∈ l.blocks.flatMap f.body := fun hl hin hz =>
    List.mem_flatMap.2 ⟨_, ((LoopForest.region_is hw.inArena hw.entry hl).blocks _).2 hin,
      hz.access.1⟩
  have hxa := hmem hab.first (ht.first.within i hmi hin) hx
  have hyb := hmem hab.second (ht.second.within j hmj hjn) hy
  obtain ⟨s₁, s₂, hs₁, hpair⟩ := Check.forM_yields (I := Session.Honest f)
    (fun _ _ _ _ hs h => Checker.honest_checkPair hw r hs h) hs h (x, y)
    (Checker.mem_pairs rfl hxa hyb hx.access.2 hy.access.2 hwr)
  rcases Checker.checkPair_yields hpair with hnone | ⟨dep, s₃, hdep, hdist⟩
  · exact (not_touches_of_none hw hab hnames ht hmi hin hmj hjn hx hy hapart hbx hby hs₁ hnone).elim
  · obtain ⟨hsrc, hdst, hkind⟩ := Oracle.answer_ensures (f := f) (t := f.forest) (x := x) (y := y) s₁
      dep (congrArg Prod.fst hdep)
    rcases hdist with ⟨hm, -⟩ | ⟨s₄, hmemo, hsym, hdist⟩
    · simp [Checker.matters, hkind hwr, Checker.builtIn] at hm
    · have hs₄ := (Checker.honest_depends hw r hs₁ hdep).named hmemo (hsym ▸ SymbolTable.le_refl _)
      exact round_le_of_distance hw hab hnames ht hmi hin hmj hjn hx hy hs₄ hsrc hdst hdist

end Through

end Func.Run

end LoopFusion
