import LoopFusion.Proofs.Fusion.Conflicts
import LoopFusion.Proofs.Fusion.Lockstep

/-!
Fusion keeps what a function returns and what it leaves in memory, unless two of its values have the
same name or an access stands before the test of a loop whose trip count is a known number.
-/

namespace LoopFusion

open Relation LoopFusion.Flow

/-- If the trip count of the loop is a known number, nothing accesses memory before its test. -/
def Func.QuietHeader (f : Func) (l : Loop) : Prop :=
  ∀ p c, f.Counted l p → p.const? = some c → ∀ x ∈ f.body l.header, ¬ f.accessesMemory x

theorem Func.quietHeader_of_loops {f : Func}
    (h : ∀ l ∈ f.forest.loops, ∀ x ∈ f.body l.header, ¬ f.accessesMemory x) :
    ∀ l ∈ f.forest.loops, f.QuietHeader l := fun l hl _ _ _ _ => h l hl

namespace Func.Run

variable {f : Func} {e h : BlockId} {args : List Int} {mem : Memory} {r : f.Run args mem}
  {m n : Nat} {x : InstId} {a : Int} {ρ : Symbol → Int} {σ : SymbolTable}

theorem exists_leave (hn : n ≤ r.last) (hin : f.InLoop e h (r.block n))
    (hlast : ¬ f.InLoop e h (r.block r.last)) :
    ∃ k, n ≤ k ∧ k < r.last ∧ r.Within e h n k ∧ ¬ f.InLoop e h (r.block (k + 1)) := by
  induction hn using Nat.decreasingInduction with
  | self => exact absurd hin hlast
  | of_succ n hn ih =>
    by_cases hnext : f.InLoop e h (r.block (n + 1))
    · obtain ⟨k, hnk, hk, hwithin, hleave⟩ := ih hnext
      refine ⟨k, by omega, hk, fun i h₁ h₂ => ?_, hleave⟩
      rcases Nat.lt_or_eq_of_le h₁ with h₁ | rfl
      · exact hwithin i h₁ h₂
      · exact hin
    · exact ⟨n, le_rfl, hn, fun i h₁ h₂ => by rwa [show i = n by omega], hnext⟩

section

variable (hret : f.Returns (r.block r.last))

include hret

theorem not_inLoop_last : ¬ f.InLoop e h (r.block r.last) := by
  intro hin
  obtain ⟨y, hy⟩ := hin.exists_edge
  exact hret.no_edge hy

theorem exists_stay (hm : m < r.last) (hin : f.InLoop e h (r.block (m + 1)))
    (hout : ¬ f.InLoop e h (r.block m)) : ∃ n, r.Stay e h (m + 1) n := by
  obtain ⟨n, hmn, hn, hwithin, hleave⟩ := exists_leave hm hin (not_inLoop_last hret)
  exact ⟨n, hmn, hwithin, fun k hk => Nat.succ.inj hk ▸ hout, hn, hleave⟩

/-- A run that returns has left all loops, so a test for inequality has failed in each of them. -/
theorem Bounded.of_quiet (hw : f.WellFormed e) (hn : n ≤ r.last)
    (hquiet : ∀ l ∈ f.forest.loops, r.block n = l.header → f.QuietHeader l)
    (hx : f.Touches args (r.visit n) x a) (hρ : r.Agrees e σ ρ (f.scopeOf? x) n) :
    r.Bounded e σ x n := by
  refine .of_behind hw hn hx hρ fun l hl hin hscope p c hcounted hsized hconst =>
    ⟨fun hb => ?_, fun stay hst hne => ?_⟩
  · obtain ⟨hmem, hacc⟩ := hx.access
    exact hquiet l hl hb p c hcounted hconst x (hb ▸ hmem) hacc
  · obtain ⟨k, hnk, hk, hwithin, hleave⟩ := exists_leave hn hin (not_inLoop_last hret)
    rw [hscope] at hρ
    have hρk := (agrees_within hw hl (on_of_lt hk) hnk hwithin).1 hρ
    have hhead := header_of_leave hw hl hst hk (hwithin k hnk le_rfl) hleave
    rw [← Poly.eval_of_const? (ρ := ρ) hconst]
    exact (hsized.round_eq hw hl hk hhead hleave hρk).2 stay hst hne

end

end Func.Run

open Build in
/-- The two bounds have the same name. -/
def Func.sharedName : Func := .build "f" do
  let a ← param "A" .ptr
  let n ← param "n" .int
  let m ← param "n" .int
  discard <| countedLoop "x" (.const 0) n 1 fun i => do
    discard <| emit (.store (← value (.gep a i)) (.const 7))
  discard <| countedLoop "y" (.const 0) m 1 fun j => do
    discard <| emit (.store (← value (.gep a j)) (.const 9))
  discard <| emit (.ret none)

theorem Func.verify_sharedName : sharedName.verify = .ok () := eq_ok_of_isOk (by decide +kernel)

namespace FusionPlan

open Func Func.Run

variable {p : FusionPlan} {f : Func} {e : BlockId} {a b : Loop} {args : List Int} {mem : Memory}
  {r : f.Run args mem} {m n m' n' : Nat} {s s' : Session}

section

variable (h : p.Accepted f e a b) (hret : f.Returns (r.block r.last))

include h hret

theorem Accepted.exists_through (hm : m < r.last) (hhead : r.block (m + 1) = p.first.header)
    (hout : ¬ f.InLoop e p.first.header (r.block m)) :
    ∃ n m' n', r.Through e a b (m + 1) n m' n' := by
  have hp := h.fits
  obtain ⟨n, hA⟩ := exists_stay hret hm (hhead ▸ hp.first.header_in) hout
  obtain ⟨-, hover⟩ := hp.first.leave _ _ (hA.within n hA.le le_rfl) (edge hA.lt) hA.leave
  rw [hp.meets] at hover
  have hn : n + 1 < r.last := by
    refine lt_of_le_of_ne hA.lt fun heq => ?_
    rw [← heq, hover] at hret
    exact hret.no_edge hp.second.preheader_edge
  have hnext : r.block (n + 2) = p.second.header :=
    (hp.second.leads _).1 (hover ▸ edge hn)
  obtain ⟨n', hB⟩ : ∃ n', r.Stay e p.second.header (n + 2) n' :=
    exists_stay hret hn (hnext.symm ▸ hp.second.header_in) (hover.symm ▸ hp.second.preheader_out)
  refine ⟨n, n + 2, n', h.plan.first.header ▸ hA, ⟨by omega, fun k h₁ h₂ => .inl ?_⟩,
    h.plan.second.header ▸ hB⟩
  obtain rfl : k = n + 1 := by omega
  rw [hover, h.plan.second.preheader]

variable (hl : (Checker.builtIn (.ofFunc f) true).Legal a b s s') (hs : s.Honest f)
  (hnames : f.DistinctNames) (hapart : r.Apart)
  (hquiet : ∀ l ∈ f.forest.loops, a.contains l.header ∨ b.contains l.header →
    l.header ∉ p.retired → f.QuietHeader l)

include hl hs hnames hapart hquiet

/-- What the checks have found of two loops that control goes through. -/
theorem Accepted.paired (ht : r.Through e a b m n m' n') : p.Paired r e a b m n m' n' := by
  have hw := h.wellFormed
  have hf := hw.inArena
  have he := hw.entry
  have hab : Checker.Adjoining f true a b := ⟨h.first, h.second,
    fun heq => h.headers_ne (by rw [h.plan.first.header, h.plan.second.header, heq]),
    hl.siblings.1, hl.first, hl.second, hl.meets⟩
  obtain ⟨s₁, s₂, hcounts, hvariables, hdistances⟩ := hl.asked
  have hs₁ := (Checker.sized_of_checkTripCounts (r := r) hw hab hs hcounts).1
  have hs₂ := (Checker.right_of_checkVariables (r := r) hw hs₁ hvariables).1
  refine ⟨ht, ?_, fun i j hmi hin hmj hjn hround => ?_,
    fun i j x y c hmi hin hmj hjn hr hx hy hwr => ?_⟩
  · rw [ht.first.round_eq hw h.first ht.first.le le_rfl,
      ht.second.round_eq hw h.second ht.second.le le_rfl]
    exact Checker.laps_agree hw hab hs hnames ht hcounts
  · obtain ⟨iva, ivb, hiva, hivb, hstep, hstart⟩ :=
      Checker.starts_agree hw hab hs₁ hnames ht hvariables
    obtain ⟨iva', hiva', hphiA, -⟩ := h.plan.first.counter
    obtain ⟨ivb', hivb', hphiB, -⟩ := h.plan.second.counter
    obtain rfl := Option.some.inj (hiva.symm.trans hiva')
    obtain rfl := Option.some.inj (hivb.symm.trans hivb')
    rw [ht.first.round_eq hw h.first hmi hin, ht.second.round_eq hw h.second hmj hjn] at hround
    rw [hphiA, hphiB, ht.first.env_phi hw h.first hiva hmi hin,
      ht.second.env_phi hw h.second hivb hmj hjn, hstep, hstart, hround]
  · have hinA := ht.first.within i hmi hin
    have hinB := ht.second.within j hmj hjn
    have hra : r.block i ∉ p.retired :=
      h.fits.not_retired_first (h.plan.first.header.symm ▸ hinA)
    rw [← LoopForest.contains_iff hf he h.first] at hinA
    rw [← LoopForest.contains_iff hf he h.second] at hinB
    exact ht.round_le_of_touches hw hab hnames hmi hin hmj hjn hx hy hapart
      (fun σ ρ => .of_quiet hret hw (ht.on_first hin).le
        (fun l hl heq => hquiet l hl (.inl (heq ▸ hinA)) (heq ▸ hra)) hx)
      (fun σ ρ => .of_quiet hret hw (ht.on_second hjn).le
        (fun l hl heq => hquiet l hl (.inr (heq ▸ hinB)) (heq ▸ hr)) hy) hwr hs₂ hdistances

theorem Accepted.regular : p.Regular r e a b := by
  intro m hm hhead hout
  obtain ⟨n, m', n', ht⟩ := h.exists_through hret hm hhead hout
  exact ⟨n, m', n', h.paired hret hl hs hnames hapart hquiet ht⟩

end

/-- Where the function returns, the fused function returns the same and leaves the same memory. -/
theorem yields_fused {x : Option Int} {mem' : Memory} (hv : f.verify = .ok ())
    (hnames : f.DistinctNames) (ha : a ∈ f.forest.loops) (hb : b ∈ f.forest.loops)
    (hs : s.Honest f)
    (hlegal : (((Checker.builtIn (.ofFunc f) true).checkCandidate a b).verdict s).1 = .ok ())
    (hplan : ofLoops f a b = .ok p)
    (hquiet : ∀ l ∈ f.forest.loops, a.contains l.header ∨ b.contains l.header →
      l.header ∉ p.retired → f.QuietHeader l)
    (hapart : ∀ r : f.Run args mem, r.Apart) (hyields : f.Yields args mem x mem') :
    (∀ s, (p.fuse f s).1 = .ok (p.fused f)) ∧ (p.fused f).Yields args mem x mem' := by
  obtain ⟨e, hw⟩ := wellFormed_of_verify hv
  have hl := Checker.verdict_eq_ok.1 (Prod.ext hlegal rfl)
  have h : p.Accepted f e a b := ⟨hw, ha, hb, ⟨true, s, _, hl⟩, of_ofLoops hplan⟩
  refine ⟨fuse_ensures hw h.fits, ?_⟩
  obtain ⟨_, ⟨r, rfl⟩, hres⟩ := hyields
  have hret := (result?_spec hres).1
  exact yields_of_regular h h.sealed (h.regular hret hl hs hnames (hapart r) hquiet) hres

/-! Sample functions. -/

theorem exists_legal {P : FusionPlan → Bool}
    (h : ∃ a ∈ f.forest.loops, ∃ b ∈ f.forest.loops,
      (((Checker.builtIn (.ofFunc f) true).checkCandidate a b).verdict .start).1.isOk ∧
        (ofLoops f a b).toOption.any P) :
    ∃ p a b, a ∈ f.forest.loops ∧ b ∈ f.forest.loops ∧
      (((Checker.builtIn (.ofFunc f) true).checkCandidate a b).verdict .start).1 = .ok () ∧
      ofLoops f a b = .ok p ∧ P p := by
  obtain ⟨a, ha, b, hb, hok, hany⟩ := h
  obtain ⟨p, hp, hP⟩ := (Option.any_eq_true ..).1 hany
  refine ⟨p, a, b, ha, hb, eq_ok_of_isOk hok, ?_, hP⟩
  cases hx : ofLoops f a b <;> rw [hx] at hp <;> cases hp
  rfl

theorem yields_fused_copyLoops : ∃ p a b m, ofLoops copyLoops a b = .ok p ∧
    copyLoops.Yields [0] (fun _ => 0) none m ∧
    (p.fused copyLoops).Yields [0] (fun _ => 0) none m ∧ m 8 = 7 := by
  obtain ⟨p, a, b, ha, hb, hlegal, hplan, -⟩ :=
    exists_legal (f := copyLoops) (P := fun _ => true) (by decide +kernel)
  obtain ⟨⟨x, m⟩, hyields, hP⟩ : ∃ y : Option Int × Memory,
      copyLoops.Yields [0] (fun _ => 0) y.1 y.2 ∧ decide (y.1 = none ∧ y.2 8 = 7) :=
    exists_yields (n := 28) (by decide +kernel)
  obtain ⟨rfl, hm⟩ := of_decide_eq_true hP
  have hquiet := quietHeader_of_loops (f := copyLoops) (by decide +kernel)
  have hfused := yields_fused verify_copyLoops (by decide +kernel) ha hb (.fresh (s := .start) rfl)
    hlegal hplan (fun l hl _ _ => hquiet l hl) (fun r => apart_of_single (by decide)) hyields
  exact ⟨p, a, b, m, hplan, hyields, hfused.2, hm⟩

/-- The checks let the plan pass, and the fused function does not return what the function does. -/
structure Breaks (p : FusionPlan) (f : Func) (a b : Loop) (args : List Int) (mem : Memory) :
    Prop where
  first : a ∈ f.forest.loops
  second : b ∈ f.forest.loops
  legal : (((Checker.builtIn (.ofFunc f) true).checkCandidate a b).verdict .start).1 = .ok ()
  plan : ofLoops f a b = .ok p
  fuses : ∀ s, (p.fuse f s).1 = .ok (p.fused f)
  differs : ∃ x m, f.Yields args mem x m ∧ ¬ (p.fused f).Yields args mem x m

theorem exists_breaks {n k : Nat} {x c d : Int} (hv : f.verify = .ok ()) (hcd : c ≠ d)
    (hf : ((f.visitAt? args mem n).bind (f.result? args)).any fun y => y.2 x = c)
    (hp : ∃ a ∈ f.forest.loops, ∃ b ∈ f.forest.loops,
      (((Checker.builtIn (.ofFunc f) true).checkCandidate a b).verdict .start).1.isOk ∧
        (ofLoops f a b).toOption.any fun p => (((p.fused f).visitAt? args mem k).bind
          ((p.fused f).result? args)).any fun y => y.2 x = d) :
    ∃ p a b, Breaks p f a b args mem := by
  obtain ⟨p, a, b, ha, hb, hlegal, hplan, hd⟩ := exists_legal hp
  obtain ⟨e, h⟩ := exists_accepted hv ha hb hlegal hplan
  obtain ⟨⟨v, m⟩, hyields, hc⟩ := exists_yields hf
  obtain ⟨⟨v', m'⟩, hyields', hd⟩ := exists_yields hd
  refine ⟨p, a, b, ha, hb, hlegal, hplan, fuse_ensures h.wellFormed h.fits, v, m, hyields,
    fun hbad => ?_⟩
  obtain ⟨-, rfl⟩ := hbad.unique hyields'
  exact hcd ((of_decide_eq_true hc).symm.trans (of_decide_eq_true hd))

/-- The store of the test that fails comes after the load of what it writes. -/
theorem breaks_eagerStore : eagerStore.verify = .ok () ∧ eagerStore.DistinctNames ∧
    (∀ r : eagerStore.Run [0] fun _ => 0, r.Apart) ∧
    ∃ p a b, Breaks p eagerStore a b [0] fun _ => 0 := by
  refine ⟨verify_eagerStore, by decide +kernel, fun r => apart_of_single (by decide), ?_⟩
  refine exists_breaks (n := 10) (k := 6) (x := 4) (c := 7) (d := 0) verify_eagerStore
    (by decide) ?_ ?_ <;> decide +kernel

/-- The second loop runs as often as the first. -/
theorem breaks_sharedName : sharedName.verify = .ok () ∧
    (∀ l ∈ sharedName.forest.loops, sharedName.QuietHeader l) ∧
    (∀ r : sharedName.Run [0, 1, 2] fun _ => 0, r.Apart) ∧
    ∃ p a b, Breaks p sharedName a b [0, 1, 2] fun _ => 0 := by
  refine ⟨verify_sharedName, quietHeader_of_loops (by decide +kernel),
    fun r => apart_of_ptr 0 (by decide), ?_⟩
  refine exists_breaks (n := 13) (k := 6) (x := 1) (c := 9) (d := 0) verify_sharedName
    (by decide) ?_ ?_ <;> decide +kernel

end FusionPlan

end LoopFusion
