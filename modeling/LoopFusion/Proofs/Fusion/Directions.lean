import LoopFusion.Proofs.Fusion.Concord
import LoopFusion.Proofs.Fusion.Conflicts

/-!
Two computations of one distance. The oracle divides the difference of two offsets by the common
stride, the distance check multiplies the difference of two addresses by it. Both start from the
same recurrences, so they agree in sign, and no run complains that they do not.
-/

namespace LoopFusion

open Inquiry

namespace Subscript

variable {f : Func} {t : LoopForest} {x : InstId} {l : LoopId} {s s' s₁ s₂ : Session}
  {sub d : Subscript} {first : AffineAccess} {a k : Int}

theorem conflict_eq_always (h : sub.conflict d = .always k) : ∃ c a,
    (d.start.sub? sub.start).bind Poly.const? = some c ∧ sub.stride.const? = some a ∧
      d.stride.const? = some a ∧ a ≠ 0 ∧ k * a = -c := by
  unfold conflict at h
  split at h
  case h_1 c a b hc ha hb =>
    obtain ⟨rfl, hne, hk⟩ := Conflict.ofEquation_eq_always h
    exact ⟨c, a, hc, ha, hb, hne, hk⟩
  case h_2 => cases h

theorem ofAccess_eq_some (h : ofAccess f t (.ofFunc f t) x s = (some sub, s')) :
    ∃ addr base sym start s₁ z s₂, f.addressOf? x = some addr ∧ f.basePointer? addr = some base ∧
      Describe.value f t (Describe.maxDepth + 1) addr ((f.owner? x).bind t.loopFor?) s₁ = (z, s₂) ∧
      s₂.Extends s' ∧ s'.symbols.intern (f.symbolName (.param base)) = (sym, s'.symbols) ∧
      parts? z = some (start, sub.stride) ∧ start.sub? (.symbol sym) = some sub.start := by
  cases haddr : (f.op? x).bind Operation.address? with
  | none =>
    rw [ofAccess, haddr] at h
    cases (Prod.mk.inj h).1
  | some addr =>
    cases hbase : f.basePointer? addr with
    | none =>
      simp only [ofAccess, haddr, hbase] at h
      cases (Prod.mk.inj h).1
    | some base =>
      simp only [ofAccess, haddr, hbase] at h
      obtain ⟨p, s₁, hp, h⟩ := bind_eq_iff.1 h
      obtain ⟨z, s₂, hz, h⟩ := bind_eq_iff.1 h
      cases hparts : parts? z with
      | none =>
        simp only [hparts] at h
        cases (Prod.mk.inj h).1
      | some parts =>
        cases hsub : parts.1.sub? p with
        | none =>
          simp only [hparts, hsub] at h
          cases (Prod.mk.inj h).1
        | some offset =>
          simp only [hparts, hsub] at h
          obtain ⟨last?, s₃, hlast, h⟩ := bind_eq_iff.1 h
          obtain ⟨hsub', rfl⟩ := Prod.mk.inj h
          obtain rfl := Option.some.inj hsub'
          obtain ⟨rfl, rfl⟩ := Prod.mk.inj hp
          have hlater := (gathers_last f t _).of_eq hlast
          have hnames := ((Describe.gathers_value f t _ _ _).of_eq hz).names
          exact ⟨addr, base, _, parts.1, _, z, s₂, haddr, hbase, hz, hlater,
            SymbolTable.intern_of_le (SymbolTable.le_trans hnames hlater.names), hparts, hsub⟩

theorem resolve_of_ofAccess (h : ofAccess f t (.ofFunc f t) x s = (some sub, s'))
    (ha : sub.stride.const? = some a) (hne : a ≠ 0) (hl : (f.owner? x).bind t.loopFor? = some l)
    (hs : s'.Extends s₁) (hr : (Engine.ofFunc f t).resolve f x l s₁ = (some first, s₂)) :
    ∃ addr base sym, f.addressOf? x = some addr ∧ f.basePointer? addr = some base ∧
      s'.symbols.intern (f.symbolName (.param base)) = (sym, s'.symbols) ∧
      first.start.sub? (.symbol sym) = some sub.start ∧ first.stride = sub.stride ∧ s₂ = s₁ := by
  obtain ⟨addr, base, sym, start, r, z, r', haddr, hbase, hz, hlater, hsym, hparts, hsub⟩ :=
    ofAccess_eq_some h
  refine ⟨addr, base, sym, haddr, hbase, hsym, ?_⟩
  cases z with
  | unknown => cases hparts
  | invariant p =>
    obtain ⟨-, hzero⟩ := Prod.mk.inj (Option.some.inj hparts)
    rw [← hzero] at ha
    exact absurd (Option.some.inj ha).symm hne
  | recurrence p q l' =>
    obtain ⟨rfl, hstep⟩ := Prod.mk.inj (Option.some.inj hparts)
    have hagain := Describe.value_again hz (hlater.trans hs)
    rw [hl] at hagain
    unfold Engine.resolve at hr
    rw [show (f.op? x).bind Operation.address? = some addr from haddr] at hr
    obtain ⟨z', r'', hz', hr⟩ := bind_eq_iff.1 hr
    obtain ⟨rfl, rfl⟩ := Prod.mk.inj (hagain.symm.trans hz')
    obtain ⟨hfirst, rfl⟩ := Prod.mk.inj hr
    obtain ⟨-, hfirst⟩ := Option.ite_none_right_eq_some.1 hfirst
    obtain rfl := Option.some.inj hfirst
    exact ⟨hsub, hstep, rfl⟩

end Subscript

theorem Poly.lt_of_proves {ρ : Symbol → Int} {p q : Poly} (h : p.proves .slt q) :
    p.eval ρ < q.eval ρ := by
  obtain ⟨c, hc, h⟩ := (Option.any_eq_true ..).1 h
  obtain ⟨d, hd, hc⟩ := Option.bind_eq_some_iff.1 hc
  have heval := Poly.eval_sub (ρ := ρ) hd
  rw [Poly.eval_of_const? hc] at heval
  have : c < 0 := of_decide_eq_true h
  omega

theorem Oracle.answer_eq_some {f : Func} {t : LoopForest} {e : Engine} {x y : InstId} {same : Bool}
    {s s' : Session} {dep : Dependence} (h : answer f t e x y same s = (some dep, s'))
    (hdir : dep.direction ≠ .star) : ∃ opx opy sx sy s₁ k, f.op? x = some opx ∧ f.op? y = some opy ∧
      sameArray? f opx opy = some true ∧ Subscript.ofAccess f t e x s = (some sx, s₁) ∧
      Subscript.ofAccess f t e y s₁ = (some sy, s') ∧ sx.conflict sy = .always k ∧
      dep.direction = .ofDistance k := by
  have hway := way_answer f t e x y same
  generalize answer f t e x y same = q at h hway
  cases hway with
  | apart => cases (Prod.mk.inj h).1
  | confused =>
    obtain rfl := Option.some.inj (Prod.mk.inj h).1
    exact absurd rfl hdir
  | compared hx hy hsame =>
    obtain ⟨sx?, s₁, hsx, h⟩ := bind_eq_iff.1 h
    obtain ⟨sy?, s₂, hsy, h⟩ := bind_eq_iff.1 h
    cases sx? with
    | none =>
      obtain rfl := Option.some.inj (Prod.mk.inj h).1
      exact absurd rfl hdir
    | some sx =>
      cases sy? with
      | none =>
        obtain rfl := Option.some.inj (Prod.mk.inj h).1
        exact absurd rfl hdir
      | some sy =>
        obtain ⟨hreport, rfl⟩ := Prod.mk.inj h
        obtain rfl | ⟨k, hc, rfl⟩ := report_eq_some hreport
        case inl => exact absurd rfl hdir
        exact ⟨_, _, sx, sy, s₁, k, hx, hy, hsame, hsx, hsy, hc, rfl⟩

namespace Checker

variable {f : Func} {keep : Bool} {a b : Loop} {x y : InstId} {dep : Dependence} {c : Checker}
  {s s₁ s₂ : Session} {d : Poly}

/-- In the session `s`, the distance of a dependence between two loops comes out as `d`. -/
structure Measures (c : Checker) (a b : Loop) (dep : Dependence) (s : Session) (d : Poly) : Prop where
  src : c.inLoop dep.src a
  dst : c.inLoop dep.dst b
  distance : ∃ first second s₁ s₂, c.engine.resolve c.func dep.src a.id s = (some first, s₁) ∧
    c.engine.resolve c.func dep.dst b.id s₁ = (some second, s₂) ∧ c.engine.nonZero first.stride ∧
    c.engine.nonZero second.stride ∧ first.stride = second.stride ∧
    c.scaledDistance? first second = some d

/-- The distance is the constant one that the oracle has found, times the square of the stride. -/
theorem Measures.eval_eq (hd : (builtIn (.ofFunc f) keep).Measures a b dep s₂ d)
    (h : (builtIn (.ofFunc f) keep).oracle.depends x y true s = (some dep, s₁))
    (hs : s₁.Extends s₂) (hdir : dep.direction ≠ .star) :
    ∃ k n : Int, dep.direction = .ofDistance k ∧ n ≠ 0 ∧ ∀ ρ, d.eval ρ = k * (n * n) := by
  obtain ⟨hsrc, hdst, -⟩ := Oracle.answer_ensures (f := f) (t := f.forest) (x := x) (y := y) s dep
    (congrArg Prod.fst h)
  obtain ⟨opx, opy, sx, sy, r, k, hopx, hopy, hsame, hsx, hsy, hconf, hk⟩ :=
    Oracle.answer_eq_some (f := f) (t := f.forest) (e := .ofFunc f f.forest) h hdir
  obtain ⟨n, a', hn, ha, hb, hne, hkn⟩ := Subscript.conflict_eq_always hconf
  obtain ⟨first, second, r₁, r₂, hfirst, hsecond, -, -, -, hdist⟩ := hd.distance
  have hscopex := of_decide_eq_true hd.src
  have hscopey := of_decide_eq_true hd.dst
  rw [hsrc] at hscopex hfirst
  rw [hdst] at hscopey hsecond
  -- the check sees the recurrences that the oracle has seen
  have hlater : r.Extends s₁ := (Subscript.gathers_ofAccess f f.forest y).of_eq hsy
  obtain ⟨vx, basex, symx, hvx, hbasex, hsymx, hstartx, hstridex, rfl⟩ :=
    Subscript.resolve_of_ofAccess hsx ha hne hscopex (hlater.trans hs) hfirst
  obtain ⟨vy, basey, symy, hvy, hbasey, hsymy, hstarty, -, -⟩ :=
    Subscript.resolve_of_ofAccess hsy hb hne hscopey hs hsecond
  -- both lie in one array, which has one name
  rw [Func.addressOf?, hopx, Option.bind_some] at hvx
  rw [Func.addressOf?, hopy, Option.bind_some] at hvy
  obtain ⟨j, j', hj, hj', hjj⟩ := Func.sameArray?_eq_some hvx hvy hsame
  obtain rfl := Option.some.inj (hbasex.symm.trans hj)
  obtain rfl := Option.some.inj (hbasey.symm.trans hj')
  obtain rfl := of_decide_eq_true hjj
  have hknown := SymbolTable.intern_of_le (n := f.symbolName (.param basex))
    (show (r.symbols.intern _).2 ≤ s₁.symbols by rw [hsymx]; exact hlater.names)
  rw [hsymx, hsymy] at hknown
  obtain rfl := (Prod.mk.inj hknown).1
  refine ⟨k, a', hk, hne, fun ρ => ?_⟩
  obtain ⟨delta, hdelta, hmul⟩ := Option.bind_eq_some_iff.1 hdist
  obtain ⟨diff, hdiff, hconst⟩ := Option.bind_eq_some_iff.1 hn
  have hx := Poly.eval_sub (ρ := ρ) hstartx
  have hy := Poly.eval_sub (ρ := ρ) hstarty
  have hxy := Poly.eval_sub (ρ := ρ) hdiff
  rw [Poly.eval_of_const? hconst] at hxy
  have hscaled : delta.eval ρ = k * a' := by
    rw [Poly.eval_sub (ρ := ρ) hdelta, hkn]
    omega
  rw [Poly.eval_mul (ρ := ρ) hmul, hscaled, hstridex, Poly.eval_of_const? ha, mul_assoc]

/-- The distance does not speak against the direction. -/
def Compatible (c : Checker) (dir : Direction) (d : Poly) : Prop :=
  (dir = .gt → ¬ c.engine.proves .sge d .zero) ∧
    (dir = .lt ∨ dir = .eq → ¬ c.engine.proves .slt d .zero)

theorem Measures.compatible (hd : (builtIn (.ofFunc f) keep).Measures a b dep s₂ d)
    (h : (builtIn (.ofFunc f) keep).oracle.depends x y true s = (some dep, s₁))
    (hs : s₁.Extends s₂) : (builtIn (.ofFunc f) keep).Compatible dep.direction d := by
  have hexact : dep.direction ≠ .star → ∃ k n : Int, dep.direction = .ofDistance k ∧ 0 < n ∧
      d.eval 0 = k * n := fun hdir => by
    obtain ⟨k, n, hk, hn, heval⟩ := hd.eval_eq h hs hdir
    exact ⟨k, n * n, hk, mul_self_pos.2 hn, heval 0⟩
  refine ⟨fun hgt hge => ?_, fun hdir hlt => ?_⟩
  · obtain ⟨k, n, hk, hn, heval⟩ := hexact (by rw [hgt]; nofun)
    have hneg : k < 0 := by
      rw [hgt, Direction.ofDistance] at hk
      split at hk
      · assumption
      · split at hk <;> cases hk
    have hval : (0 : Int) ≤ d.eval 0 := Poly.holds_of_proves hge
    rw [heval] at hval
    exact absurd hval (not_le.2 (mul_neg_of_neg_of_pos hneg hn))
  · obtain ⟨k, n, hk, hn, heval⟩ := hexact (by rcases hdir with h | h <;> rw [h] <;> nofun)
    have hnonneg : 0 ≤ k := by
      by_contra hneg
      rw [Direction.ofDistance, if_pos (not_le.1 hneg)] at hk
      rcases hdir with h | h <;> rw [h] at hk <;> cases hk
    have hval : d.eval 0 < 0 := Poly.lt_of_proves hlt
    rw [heval] at hval
    exact absurd hval (not_lt.2 (mul_nonneg hnonneg hn.le))

end Checker

end LoopFusion
