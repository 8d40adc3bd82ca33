import LoopFusion.Proofs.Flow.Reducible
import LoopFusion.Proofs.Memory.Subscripts

/-!
An answer of the oracle that there is no dependence. On every run, within one iteration of the loops
around both accesses, they touch different addresses, if each access stands behind the test of its
innermost loop.
-/

namespace LoopFusion

open Relation LoopFusion.Flow

namespace Func

variable {f : Func} {e b d : BlockId} {x y i : InstId} {k : Nat} {args : List Int} {mem : Memory}

namespace Run

variable {r : f.Run args mem} {m n : Nat} {ρ : Symbol → Int} {σ : SymbolTable} {a : Int}

/-- Accesses to different arrays touch different addresses. -/
def Apart (r : f.Run args mem) : Prop :=
  ∀ m n, m ≤ r.last → n ≤ r.last → ∀ x y a, f.Touches args (r.visit m) x a →
    f.Touches args (r.visit n) y a → ∀ vx vy j k, f.addressOf? x = some vx →
      f.addressOf? y = some vy → f.Rooted vx j → f.Rooted vy k → j = k

/-- Whenever the access has a known number of iterations to count, it is on one of them. -/
def Bounded (r : f.Run args mem) (e : BlockId) (σ : SymbolTable) (x : InstId) (n : Nat) : Prop :=
  ∀ l ∈ f.forest.loops, f.scopeOf? x = some l.id → ∀ p c, f.Counted l p → r.Sized e σ l p →
    p.const? = some c → (r.round l n : Int) < c

theorem apart_of_ptr (i : Nat) (h : ∀ k < f.params.length, f.paramType? k = some .ptr → k = i) :
    r.Apart := fun _ _ _ _ _ _ _ _ _ _ _ _ _ _ _ hj hk =>
  (h _ hj.isParam hj.isPtr).trans (h _ hk.isParam hk.isPtr).symm

theorem apart_of_single (h : f.params.length ≤ 1) : r.Apart :=
  apart_of_ptr 0 fun k hk _ => by omega

section

variable (hw : f.WellFormed e)

include hw

theorem touches_spec (hn : n ≤ r.last) (h : f.Touches args (r.visit n) x a) :
    r.On n ∧ f.owner? x = some (r.block n) ∧ ∃ addr, f.addressOf? x = some addr ∧
      f.Defined e (r.block n) addr ∧ addr.eval args (r.env n) = a := by
  have hl := h.1
  obtain ⟨hx, addr, haddr, heval⟩ := (hw.touches_iff hl).1 h
  refine ⟨⟨hn, hl⟩, hw.owner _ hl x hx, addr, haddr, ?_, heval⟩
  obtain ⟨op, hop, ha⟩ := Option.bind_eq_some_iff.1 haddr
  refine hw.defined_operand hl (leads hw hn) hx hop ?_ ?_ <;> cases op <;> cases ha <;>
    simp [Operation.isPhi, Operation.operands]

theorem inScope_scopeOf (h : f.owner? x = some b) : f.InScope e (f.scopeOf? x) b := by
  rw [scopeOf?, h]
  exact inScope_loopFor hw b

omit hw in
theorem Located.round_le {s : Subscript} (hs : r.Located e σ x s) (hb : r.Bounded e σ x n)
    {last : Int} (h : s.last? = some last) : (r.turn (f.scopeOf? x) n : Int) ≤ last := by
  obtain ⟨l, hl, hscope, p, hcounted, hsized, hc⟩ := hs.last last h
  have := hb l hl hscope p _ hcounted hsized hc
  rw [hscope, turn_some hl]
  omega

/-- Separate accesses touch different addresses, unless they are in different arrays. -/
theorem Separate.roots_ne (hsep : r.Separate e σ x y) (hm : m ≤ r.last) (hn : n ≤ r.last)
    (hx : f.Touches args (r.visit m) x a) (hy : f.Touches args (r.visit n) y a)
    (hρx : r.Agrees e σ ρ (f.scopeOf? x) m) (hρy : r.Agrees e σ ρ (f.scopeOf? y) n)
    (hbx : r.Bounded e σ x m) (hby : r.Bounded e σ y n) :
    ∃ vx vy j k, f.addressOf? x = some vx ∧ f.addressOf? y = some vy ∧ f.Rooted vx j ∧
      f.Rooted vy k ∧ j ≠ k := by
  obtain ⟨hom, hownx, vx, hvx, hdefx, hax⟩ := touches_spec hw hm hx
  obtain ⟨hon, howny, vy, hvy, hdefy, hay⟩ := touches_spec hw hn hy
  rcases hsep vx vy hvx hvy with ⟨j, k, hj, hk, hne⟩ | ⟨⟨k, hjx, hky⟩, s, d, hs, hd, hnever⟩
  · exact ⟨vx, vy, j, k, hvx, hvy, rooted_of_rootOf? hj, rooted_of_rootOf? hk, hne⟩
  · exfalso
    obtain ⟨_, bx, h₁, h₂, haddrx⟩ := hs.address
    obtain rfl := Option.some.inj (hvx.symm.trans h₁)
    obtain rfl := Option.some.inj (hjx.symm.trans h₂)
    obtain ⟨_, by', h₃, h₄, haddry⟩ := hd.address
    obtain rfl := Option.some.inj (hvy.symm.trans h₃)
    obtain rfl := Option.some.inj (hky.symm.trans h₄)
    have heqx := haddrx m ρ hom (inScope_scopeOf hw hownx) hdefx hρx
    have heqy := haddry n ρ hon (inScope_scopeOf hw howny) hdefy hρy
    rw [Subscript.conflict] at hnever
    split at hnever
    case h_2 => cases hnever
    case h_1 c p q hc hp hq =>
      obtain ⟨diff, hdiff, hc⟩ := Option.bind_eq_some_iff.1 hc
      rw [Poly.eval_of_const? hp] at heqx
      rw [Poly.eval_of_const? hq] at heqy
      refine Conflict.no_solution (x := r.turn (f.scopeOf? x) m) (y := r.turn (f.scopeOf? y) n)
        hnever (fun _ _ hsrc hdst => ⟨⟨Int.natCast_nonneg _, hs.round_le hbx hsrc⟩,
          Int.natCast_nonneg _, hd.round_le hby hdst⟩) ?_
      rw [← Poly.eval_of_const? (ρ := ρ) hc, Poly.eval_sub hdiff]
      omega

end

end Run

/-- A loop around the innermost loop of the instruction. -/
def Around (f : Func) (l : Loop) (x : InstId) : Prop :=
  ∃ b, f.owner? x = some b ∧ l.contains b ∧ f.scopeOf? x ≠ some l.id

/-- Between the two visits no loop around both accesses begins another iteration. -/
def Run.SameIteration (r : f.Run args mem) (x y : InstId) (m n : Nat) : Prop :=
  ∀ l ∈ f.forest.loops, f.Around l x → f.Around l y →
    ∀ k, min m n < k → k ≤ max m n → r.block k ≠ l.header

/-- The access stands behind the test of its innermost loop, if the trip count of that loop is
known, and the loop does end. -/
def Covered (f : Func) (x : InstId) : Prop :=
  ∀ l ∈ f.forest.loops, f.scopeOf? x = some l.id → ∀ p c, f.Counted l p → p.const? = some c →
    f.owner? x ≠ some l.header ∧
      ∀ stay, StayTest.ofLoop? f l = some stay → stay.test = .ne → 0 ≤ c

namespace Run

variable {r : f.Run args mem} {m n : Nat} {ρ : Symbol → Int} {σ : SymbolTable} {a : Int}

section

variable (hw : f.WellFormed e)

include hw

theorem Bounded.of_behind (hn : n ≤ r.last) (hx : f.Touches args (r.visit n) x a)
    (hρ : r.Agrees e σ ρ (f.scopeOf? x) n)
    (h : ∀ l ∈ f.forest.loops, f.InLoop e l.header (r.block n) → f.scopeOf? x = some l.id →
      ∀ p c, f.Counted l p → r.Sized e σ l p → p.const? = some c → r.block n ≠ l.header ∧
        ∀ stay, StayTest.ofLoop? f l = some stay → stay.test = .ne → 0 ≤ c) :
    r.Bounded e σ x n := by
  intro l hl hscope p c hcounted hsized hconst
  obtain ⟨hon, hown, -⟩ := touches_spec hw hn hx
  have hin : f.InLoop e l.header (r.block n) :=
    (inScope_some hl).1 (hscope ▸ inScope_scopeOf hw hown)
  obtain ⟨hhead, hne⟩ := h l hl hin hscope p c hcounted hsized hconst
  rw [hscope] at hρ
  rw [← Poly.eval_of_const? (ρ := ρ) hconst]
  refine hsized.round_lt hw hl hon hin hhead hρ fun stay hst ht => ?_
  rw [Poly.eval_of_const? hconst]
  exact hne stay hst ht

theorem Bounded.of_covered (hc : f.Covered x) (hn : n ≤ r.last)
    (hx : f.Touches args (r.visit n) x a) (hρ : r.Agrees e σ ρ (f.scopeOf? x) n) :
    r.Bounded e σ x n := by
  refine .of_behind hw hn hx hρ fun l hl _ hscope p c hcounted _ hconst => ?_
  obtain ⟨-, hown, -⟩ := touches_spec hw hn hx
  exact (hc l hl hscope p c hcounted hconst).imp_left fun hhead hb => hhead (hb ▸ hown)

theorem last_visit (hn : n ≤ r.last) (hd : Dom f.Edge e d (r.block n)) :
    ∃ k ≤ n, r.block k = d ∧ ∀ j, k < j → j ≤ n → r.block j ≠ d := by
  induction n with
  | zero =>
    rw [block_zero hw] at hd
    exact ⟨0, le_rfl, by rw [block_zero hw, hd.eq_root], fun j h₁ h₂ => by omega⟩
  | succ n ih =>
    by_cases hb : r.block (n + 1) = d
    · exact ⟨n + 1, le_rfl, hb, fun j h₁ h₂ => by omega⟩
    · obtain ⟨k, hk, hkd, hafter⟩ := ih (by omega) (dom_pred hw hn hd hb)
      refine ⟨k, by omega, hkd, fun j h₁ h₂ => ?_⟩
      rcases Nat.le_succ_iff.1 h₂ with h₂ | rfl
      · exact hafter j h₁ h₂
      · exact hb

omit hw in
theorem walk {P : BlockId → Prop} (hmn : m ≤ n) (hn : n ≤ r.last)
    (h : ∀ j, m ≤ j → j ≤ n → P (r.block j)) : Walk f.Edge P (r.block m) (r.block n) := by
  induction n, hmn using Nat.le_induction with
  | base => exact .refl (h m le_rfl le_rfl)
  | succ n hmn ih =>
    exact .tail (ih (by omega) fun j h₁ h₂ => h j h₁ (by omega)) (edge hn) (h _ (by omega) le_rfl)

/-- In a reducible graph control comes again to a block only through the header of a loop around
it. -/
theorem not_visited (hred : f.reducible) (hmn : m ≤ n) (hn : n ≤ r.last)
    (hd : Dom f.Edge e d (r.block m))
    (hskip : ∀ q, f.InLoop e q d → ∀ k, m < k → k ≤ n → r.block k ≠ q) :
    ∀ k, m < k → k ≤ n → r.block k ≠ d := by
  intro k hmk hkn hkd
  obtain ⟨j, hjm, hjd, hafter⟩ := last_visit hw (hmn.trans hn) hd
  -- from the last visit of `d` to this one control has met no header of a loop around `d`
  have hfree : ∀ i, j + 1 ≤ i → i ≤ k → ¬ f.InLoop e (r.block i) d := by
    intro i hji hik hin
    by_cases him : m < i
    · exact hskip _ hin i him (by omega) rfl
    · have hne : r.block i ≠ d := hafter i hji (by omega)
      have hnd : ¬ Dom f.Edge e d (r.block i) := fun h => hne (hin.dom.antisymm h)
      refine hnd ⟨hin.dom.reach_left, fun hw' => hd.2 (hw'.trans ?_)⟩
      exact walk (by omega) (by omega) fun i' h₁ h₂ => hafter i' (by omega) h₂
  have hedge := edge (r := r) (n := j) (by omega)
  have hw' := walk (r := r) (P := fun c => ¬ f.InLoop e c d) (by omega) (by omega) hfree
  rw [hjd] at hedge
  rw [hkd] at hw'
  obtain ⟨q, hq, hin⟩ := header_of_cycle hw.inArena hw.entry hred hd.reach_left hedge hw'
  exact hq hin

theorem around_of_fixed {q : BlockId} (hown : f.owner? x = some b)
    (hst : Describe.standing f.forest (f.scopeOf? x) d = .before) (hq : f.InLoop e q d) :
    ∃ l ∈ f.forest.loops, l.header = q ∧ f.Around l x := by
  have hf := hw.inArena
  have he := hw.entry
  obtain ⟨p, hp, rfl⟩ := LoopForest.exists_loop hf he hq.header
  refine ⟨p, hp, rfl, b, hown, ?_⟩
  rw [LoopForest.contains_iff hf he hp]
  unfold Describe.standing at hst
  split at hst
  case h_1 hnone => exact absurd hq (LoopForest.loopFor?_eq_none hf he hnone _)
  case h_2 id s hfor hs =>
    obtain ⟨c, hc, rfl, -, hall⟩ := LoopForest.loopFor?_eq_some hf he hfor
    have hpc := hall _ hq
    rw [scopeOf?, hown, Option.bind_some] at hs
    obtain ⟨l, hl, rfl, hlb, -⟩ := LoopForest.loopFor?_eq_some hf he hs
    split at hst
    case isTrue => cases hst
    case isFalse hne =>
      split at hst
      case isFalse => cases hst
      case isTrue henc =>
        rw [LoopForest.encloses_iff hf he hl hc] at henc
        refine ⟨(hpc.trans henc).trans hlb, fun heq => hne ?_⟩
        rw [scopeOf?, hown, Option.bind_some, hs] at heq
        obtain rfl := LoopForest.eq_of_id hl hp (Option.some.inj heq)
        exact congrArg Loop.id (LoopForest.eq_of_header hf he hc hl (henc.antisymm hpc))
  case h_3 => cases hst

theorem eval_of_fixed {v : Value} (hred : f.reducible) (hn : r.On n) (hmn : m ≤ n)
    (hownx : f.owner? x = some (r.block m)) (howny : f.owner? y = some (r.block n))
    (hiter : ∀ l ∈ f.forest.loops, f.Around l x → f.Around l y →
      ∀ k, m < k → k ≤ n → r.block k ≠ l.header)
    (hx : f.Fixed e (f.scopeOf? x) (r.block m) v) (hy : f.Fixed e (f.scopeOf? y) (r.block n) v) :
    v.eval args (r.env n) = v.eval args (r.env m) := by
  refine Value.eval_congr ?_
  rintro i rfl
  obtain ⟨d, hd, hi, hdom⟩ := hx.defined.ahead
  refine env_eq hw hd hi hn hmn (not_visited hw hred hmn hn.le hdom fun q hq k => ?_)
  obtain ⟨l, hl, rfl, hax⟩ := around_of_fixed hw hownx (hx.before i rfl d hd hi) hq
  obtain ⟨l', hl', heq, hay⟩ := around_of_fixed hw howny (hy.before i rfl d hd hi) hq
  obtain rfl := LoopForest.eq_of_header hw.inArena hw.entry hl' hl heq
  exact hiter _ hl' hax hay k

theorem exists_agreeing (hnames : f.DistinctNames) (hred : f.reducible) (hm : m ≤ r.last)
    (hn : n ≤ r.last) (hx : f.Touches args (r.visit m) x a)
    (hy : f.Touches args (r.visit n) y a) (hiter : r.SameIteration x y m n) :
    ∃ ρ, r.Agrees e σ ρ (f.scopeOf? x) m ∧ r.Agrees e σ ρ (f.scopeOf? y) n := by
  obtain ⟨hom, hownx, -⟩ := touches_spec hw hm hx
  obtain ⟨hon, howny, -⟩ := touches_spec hw hn hy
  have heq : ∀ v, f.Fixed e (f.scopeOf? x) (r.block m) v → f.Fixed e (f.scopeOf? y) (r.block n) v →
      v.eval args (r.env m) = v.eval args (r.env n) := by
    intro v hvx hvy
    rcases Nat.le_total m n with hmn | hnm
    · refine (eval_of_fixed hw hred hon hmn hownx howny (fun l hl hax hay k => ?_) hvx hvy).symm
      have := hiter l hl hax hay k
      rwa [min_eq_left hmn, max_eq_right hmn] at this
    · refine eval_of_fixed hw hred hom hnm howny hownx (fun l hl hay hax k => ?_) hvy hvx
      have := hiter l hl hax hay k
      rwa [min_eq_right hnm, max_eq_left hnm] at this
  obtain ⟨ρ, hρ⟩ := hnames.exists_valuation (σ := σ)
    (fun v hv => mem_values hv.defined.usable hv.named)
    (fun v hv => mem_values hv.defined.usable hv.named) heq
  exact ⟨ρ, fun v s hv hs => (hρ v s hs).1 hv, fun v s hv hs => (hρ v s hs).2 hv⟩

end

end Run

end Func

namespace Oracle

open Func Run

/-- No dependence, no common address. -/
theorem disjoint_of_none {f : Func} {x y : InstId} {s : Session} {args : List Int} {mem : Memory}
    {m n : Nat} {a : Int} (hv : f.verify = .ok ()) (hnames : f.DistinctNames)
    (hred : f.reducible) (hx : f.Covered x) (hy : f.Covered y) (hs : s.Honest f)
    (hnone : ((ofEngine f f.forest (.ofFunc f f.forest)).depends x y true s).1 = none)
    (r : f.Run args mem) (hapart : r.Apart) (hm : m ≤ r.last) (hn : n ≤ r.last)
    (hiter : r.SameIteration x y m n) (hxa : f.Touches args (r.visit m) x a) :
    ¬ f.Touches args (r.visit n) y a := by
  intro hya
  obtain ⟨e, hw⟩ := wellFormed_of_verify hv
  let σ := ((ofEngine f f.forest (.ofFunc f f.forest)).depends x y true s).2.symbols
  have hsep : r.Separate e σ x y :=
    (asks_answer hw x y s hs (SymbolTable.le_refl _)).1 hnone
  obtain ⟨ρ, hρx, hρy⟩ := exists_agreeing (σ := σ) hw hnames hred hm hn hxa hya hiter
  obtain ⟨vx, vy, j, k, hvx, hvy, hj, hk, hne⟩ := hsep.roots_ne hw hm hn hxa hya hρx hρy
    (.of_covered hw hx hm hxa hρx) (.of_covered hw hy hn hya hρy)
  exact hne (hapart m n hm hn x y a hxa hya vx vy j k hvx hvy hj hk)

end Oracle

/-! Sample functions over one array. -/

namespace Func

open Build in
/-- The second loop copies what the first has written to the next places. -/
def copyLoops : Func := .build "f" do
  let a ← param "A" .ptr
  discard <| countedLoop "x" (.const 0) (.const 4) 1 fun i => do
    discard <| emit (.store (← value (.gep a i)) (.const 7))
  discard <| countedLoop "y" (.const 0) (.const 4) 1 fun j => do
    let t ← value (.load (← value (.gep a j)))
    discard <| emit (.store (← value (.gep a (← value (.binary .add j (.const 8))))) t)
  discard <| emit (.ret none)

open Build in
/-- The first loop stores before its test, and so once more than it runs; the second loop copies
what the last of these stores has written. -/
def eagerStore : Func := .build "f" do
  let a ← param "A" .ptr
  let l ← openLoop "x" (.const 0) (.const 1) 1
  switchTo l.header
  discard <| emit (.store (← value (.gep a (.inst l.iv))) (.const 7))
  switchTo l.body
  discard <| closeLoop l
  discard <| countedLoop "y" (.const 0) (.const 1) 1 fun j => do
    let t ← value (.load (← value (.gep a (← value (.binary .add j (.const 1))))))
    discard <| emit (.store (← value (.gep a (← value (.binary .add j (.const 4))))) t)
  discard <| emit (.ret none)

open Build in
/-- Control enters the cycle at either of its two blocks, and so the cycle is no loop. -/
def twoDoors : Func := .build "f" do
  let a ← param "A" .ptr
  let entry ← current
  let p ← createBlock "p"
  let q ← createBlock "q"
  let exit ← createBlock "exit"
  discard <| emit (.condBr (.const 1) p q)
  switchTo p
  let i ← value (.phi [(entry, .const 0)])
  discard <| emit (.store (← value (.gep a i)) (.const 7))
  let next ← value (.binary .add i (.const 1))
  discard <| emit (.load (← value (.gep a next)))
  discard <| emit (.condBr (← value (.compare .slt i (.const 3))) q exit)
  switchTo q
  let j ← value (.phi [(entry, .const 0), (p, next)])
  discard <| emit (.br p)
  addIncoming i q j
  switchTo exit
  discard <| emit (.ret none)

open Build in
/-- The loop starts behind its bound, and its test compares for equality. -/
def overrun : Func := .build "f" do
  let a ← param "A" .ptr
  let n ← param "n" .int
  let entry ← current
  let header ← createBlock "header"
  let body ← createBlock "body"
  let exit ← createBlock "exit"
  let start ← value (.binary .add n (.const 5))
  discard <| emit (.br header)
  switchTo header
  let i ← value (.phi [(entry, start)])
  discard <| emit (.condBr (← value (.compare .ne i n)) body exit)
  switchTo body
  discard <| emit (.store (← value (.gep a i)) (.const 7))
  let next ← value (.binary .add i (.const 1))
  discard <| emit (.load (← value (.gep a next)))
  addIncoming i body next
  discard <| emit (.br header)
  switchTo exit
  discard <| emit (.ret none)

theorem verify_copyLoops : copyLoops.verify = .ok () := eq_ok_of_isOk (by decide +kernel)

theorem verify_eagerStore : eagerStore.verify = .ok () := eq_ok_of_isOk (by decide +kernel)

section

variable {f : Func} {x y : InstId} {args : List Int} {mem : Memory} {m n : Nat} {a b : Int}

/-- The address that the access touches on the visit. -/
def touched? (f : Func) (args : List Int) (x : InstId) (v : Visit) : Option Int :=
  if v.block ∈ f.layout ∧ x ∈ f.body v.block then
    (f.addressOf? x).map (·.eval args (f.leave args v).env)
  else none

theorem Run.touches_of_touched? {e : BlockId} (hw : f.WellFormed e) (r : f.Run args mem)
    (hn : n ≤ r.last) (h : (f.visitAt? args mem n).bind (f.touched? args x) = some a) :
    f.Touches args (r.visit n) x a := by
  rw [r.visitAt?_eq hn, Option.bind_some] at h
  obtain ⟨⟨hl, hx⟩, h⟩ := Option.ite_none_right_eq_some.1 h
  obtain ⟨addr, haddr, heval⟩ := Option.map_eq_some_iff.1 h
  exact (hw.touches_iff hl).2 ⟨hx, addr, haddr, heval⟩

theorem exists_touches {e : BlockId} (hw : f.WellFormed e) (args : List Int) (mem : Memory)
    (hmn : m ≤ n)
    (hx : (f.visitAt? args mem m).bind (f.touched? args x) = some a)
    (hy : (f.visitAt? args mem n).bind (f.touched? args y) = some b) :
    ∃ r : f.Run args mem, n ≤ r.last ∧ f.Touches args (r.visit m) x a ∧
      f.Touches args (r.visit n) y b := by
  obtain ⟨v, hv, -⟩ := Option.bind_eq_some_iff.1 hy
  obtain ⟨r, rfl, -⟩ := exists_run hv
  exact ⟨r, le_rfl, r.touches_of_touched? hw hmn hx, r.touches_of_touched? hw le_rfl hy⟩

theorem Run.sameIteration_of_outermost (r : f.Run args mem)
    (h : ∀ l ∈ f.forest.loops, (f.owner? x).any l.contains → f.scopeOf? x = some l.id) (m n : Nat) :
    r.SameIteration x y m n := by
  rintro l hl ⟨b, hb, hc, hs⟩
  exact absurd (h l hl (by rw [hb]; exact hc)) hs

theorem covered_of_body (h : ∀ l ∈ f.forest.loops, f.owner? x ≠ some l.header ∧
    (StayTest.ofLoop? f l).all fun stay => stay.test ≠ .ne) : f.Covered x := by
  intro l hl _ p c _ _
  refine ⟨(h l hl).1, fun stay hst hne => ?_⟩
  have := (h l hl).2
  rw [hst, Option.all_some, hne] at this
  cases this

end

end Func

namespace Oracle

open Func Run

theorem disjoint_of_none_copyLoops : ∃ r : copyLoops.Run [0] fun _ => 0,
    copyLoops.Touches [0] (r.visit 2) ⟨4⟩ 0 ∧ copyLoops.Touches [0] (r.visit 16) ⟨16⟩ 8 ∧
      ¬ copyLoops.Touches [0] (r.visit 16) ⟨16⟩ 0 := by
  obtain ⟨e, hw⟩ := wellFormed_of_verify verify_copyLoops
  obtain ⟨r, hlast, hx, hy⟩ := exists_touches (m := 2) (n := 16) (x := ⟨4⟩) (y := ⟨16⟩) (a := 0)
    (b := 8) hw [0] (fun _ => 0) (by omega) (by decide +kernel) (by decide +kernel)
  refine ⟨r, hx, hy, ?_⟩
  exact disjoint_of_none verify_copyLoops (by decide +kernel) (by decide +kernel)
    (covered_of_body (by decide +kernel)) (covered_of_body (by decide +kernel))
    (.fresh (s := .start) rfl) (by decide +kernel) r (apart_of_single (by decide)) (by omega)
    (by omega) (r.sameIteration_of_outermost (by decide +kernel) 2 16) hx

/-- An access in the header also runs for the test that fails. The bound does not count that. -/
theorem not_disjoint_eagerStore : eagerStore.verify = .ok () ∧ eagerStore.DistinctNames ∧
    eagerStore.reducible ∧
    ((ofEngine eagerStore eagerStore.forest (.ofFunc eagerStore eagerStore.forest)).depends ⟨4⟩ ⟨14⟩
      true .start).1 = none ∧
    ∃ r : eagerStore.Run [0] fun _ => 0, r.Apart ∧ 4 ≤ r.last ∧ 7 ≤ r.last ∧
      r.SameIteration ⟨4⟩ ⟨14⟩ 4 7 ∧ eagerStore.Touches [0] (r.visit 4) ⟨4⟩ 1 ∧
      eagerStore.Touches [0] (r.visit 7) ⟨14⟩ 1 := by
  obtain ⟨e, hw⟩ := wellFormed_of_verify verify_eagerStore
  obtain ⟨r, hlast, hx, hy⟩ := exists_touches (m := 4) (n := 7) (x := ⟨4⟩) (y := ⟨14⟩) (a := 1)
    (b := 1) hw [0] (fun _ => 0) (by omega) (by decide +kernel) (by decide +kernel)
  exact ⟨verify_eagerStore, by decide +kernel, by decide +kernel, by decide +kernel, r,
    apart_of_single (by decide), by omega, by omega,
    r.sameIteration_of_outermost (by decide +kernel) 4 7, hx, hy⟩

/-- A cycle with two entries is no loop, and what varies around it is taken for fixed. -/
theorem not_disjoint_twoDoors : twoDoors.verify = .ok () ∧ twoDoors.DistinctNames ∧
    twoDoors.Covered ⟨6⟩ ∧ twoDoors.Covered ⟨3⟩ ∧
    ((ofEngine twoDoors twoDoors.forest (.ofFunc twoDoors twoDoors.forest)).depends ⟨6⟩ ⟨3⟩
      true .start).1 = none ∧
    ∃ r : twoDoors.Run [0] fun _ => 0, r.Apart ∧ 3 ≤ r.last ∧ r.SameIteration ⟨6⟩ ⟨3⟩ 1 3 ∧
      twoDoors.Touches [0] (r.visit 1) ⟨6⟩ 1 ∧ twoDoors.Touches [0] (r.visit 3) ⟨3⟩ 1 := by
  have hv : twoDoors.verify = .ok () := eq_ok_of_isOk (by decide +kernel)
  obtain ⟨e, hw⟩ := wellFormed_of_verify hv
  obtain ⟨r, hlast, hx, hy⟩ := exists_touches (m := 1) (n := 3) (x := ⟨6⟩) (y := ⟨3⟩) (a := 1)
    (b := 1) hw [0] (fun _ => 0) (by omega) (by decide +kernel) (by decide +kernel)
  exact ⟨hv, by decide +kernel, covered_of_body (by decide +kernel),
    covered_of_body (by decide +kernel), by decide +kernel, r, apart_of_single (by decide), hlast,
    r.sameIteration_of_outermost (by decide +kernel) 1 3, hx, hy⟩

/-- A loop that never meets its bound runs on. Its negative count is taken for no run at all. -/
theorem not_disjoint_overrun : overrun.verify = .ok () ∧ overrun.DistinctNames ∧
    overrun.reducible ∧
    (∀ l ∈ overrun.forest.loops, overrun.owner? ⟨9⟩ ≠ some l.header ∧
      overrun.owner? ⟨6⟩ ≠ some l.header) ∧
    ((ofEngine overrun overrun.forest (.ofFunc overrun overrun.forest)).depends ⟨9⟩ ⟨6⟩
      true .start).1 = none ∧
    ∃ r : overrun.Run [0, 0] fun _ => 0, r.Apart ∧ 4 ≤ r.last ∧ r.SameIteration ⟨9⟩ ⟨6⟩ 2 4 ∧
      overrun.Touches [0, 0] (r.visit 2) ⟨9⟩ 6 ∧ overrun.Touches [0, 0] (r.visit 4) ⟨6⟩ 6 := by
  have hv : overrun.verify = .ok () := eq_ok_of_isOk (by decide +kernel)
  obtain ⟨e, hw⟩ := wellFormed_of_verify hv
  obtain ⟨r, hlast, hx, hy⟩ := exists_touches (m := 2) (n := 4) (x := ⟨9⟩) (y := ⟨6⟩) (a := 6)
    (b := 6) hw [0, 0] (fun _ => 0) (by omega) (by decide +kernel) (by decide +kernel)
  exact ⟨hv, by decide +kernel, by decide +kernel, by decide +kernel, by decide +kernel, r,
    apart_of_ptr 0 (by decide +kernel), hlast,
    r.sameIteration_of_outermost (by decide +kernel) 2 4, hx, hy⟩

end Oracle

end LoopFusion
