import LoopFusion.Ir.Builder
import LoopFusion.Proofs.Symbolic.SoundCount

/-!
What the answers of the engine say of one stay of control in a loop. From one valuation of the
unknowns, good anywhere during the stay, come the values on every round and the number of times that
control goes back to the header before it leaves.
-/

namespace LoopFusion

open Relation LoopFusion.Flow

namespace Func

variable {f : Func} {args : List Int} {mem : Memory} {r : f.Run args mem} {e d h : BlockId}
  {l : Loop} {k m n : Nat} {ρ : Symbol → Int} {σ : SymbolTable} {v : Value}

theorem DistinctNames.exists_agrees (hnames : f.DistinctNames) (r : f.Run args mem) (e : BlockId)
    (σ : SymbolTable) (scope : Option LoopId) (n : Nat) : ∃ ρ, r.Agrees e σ ρ scope n := by
  obtain ⟨ρ, hρ⟩ := hnames.exists_valuation (σ := σ) (P := f.Fixed e scope (r.block n))
    (Q := fun _ => False) (x := Value.eval args (r.env n)) (y := fun _ => 0)
    (fun v hv => mem_values hv.defined.usable hv.named) nofun nofun
  exact ⟨ρ, fun v s hv hs => (hρ v s hs).1 hv⟩

namespace Run

/-- Control comes into the loop of `h` on the `m`-th visit and leaves it after the `n`-th. -/
structure Stay (r : f.Run args mem) (e h : BlockId) (m n : Nat) : Prop where
  le : m ≤ n
  within : r.Within e h m n
  enter : ∀ k, m = k + 1 → ¬ f.InLoop e h (r.block k)
  lt : n < r.last
  leave : ¬ f.InLoop e h (r.block (n + 1))

/-- How often control goes back to the header between two visits. -/
def laps (r : f.Run args mem) (l : Loop) (m n : Nat) : Nat :=
  (List.range' m (n - m)).countP fun k => l.contains (r.block k) && r.block (k + 1) = l.header

/-- On the `n`-th visit the value is known and, if the loop computes it, it is from this round. -/
structure Current (r : f.Run args mem) (e : BlockId) (l : Loop) (n : Nat) (v : Value) : Prop where
  usable : f.Usable v
  computed : ∀ i, v = .inst i → ∃ d ∈ f.layout, i ∈ f.body d ∧
    (Dom f.Edge e d l.header ∨ f.InLoop e l.header d ∧
      ∃ k ≤ n, r.block k = d ∧ r.Within e l.header k n ∧ r.round l k = r.round l n)

theorem exists_last (hk : r.block k = d) (hkn : k ≤ n) :
    ∃ j, k ≤ j ∧ j ≤ n ∧ r.block j = d ∧ ∀ i, j < i → i ≤ n → r.block i ≠ d := by
  induction n, hkn using Nat.le_induction with
  | base => exact ⟨k, le_rfl, le_rfl, hk, fun i h₁ h₂ => by omega⟩
  | succ n hkn ih =>
    by_cases hb : r.block (n + 1) = d
    · exact ⟨n + 1, by omega, le_rfl, hb, fun i h₁ h₂ => by omega⟩
    · obtain ⟨j, hkj, hjn, hj, hafter⟩ := ih
      refine ⟨j, hkj, by omega, hj, fun i h₁ h₂ => ?_⟩
      rcases Nat.le_succ_iff.1 h₂ with h₂ | rfl
      · exact hafter i h₁ h₂
      · exact hb

theorem laps_self : r.laps l m m = 0 := by
  rw [laps, Nat.sub_self]
  rfl

theorem laps_succ (hmn : m ≤ n) : r.laps l m (n + 1) =
    r.laps l m n + if l.contains (r.block n) ∧ r.block (n + 1) = l.header then 1 else 0 := by
  rw [laps, laps, Nat.succ_sub hmn, List.range'_1_concat, List.countP_append, List.countP_singleton,
    Nat.add_sub_cancel' hmn]
  simp

section

variable (hw : f.WellFormed e) (hl : l ∈ f.forest.loops)

include hw hl

theorem Agrees.move (hm : r.On m) (hn : r.On n)
    (hin : r.Within e l.header (min m n) (max m n)) (hρ : r.Agrees e σ ρ (some l.id) m) :
    r.Agrees e σ ρ (some l.id) n := by
  rcases Nat.le_total m n with hmn | hnm
  · rw [min_eq_left hmn, max_eq_right hmn] at hin
    exact (agrees_within hw hl hn hmn hin).1 hρ
  · rw [min_eq_right hnm, max_eq_left hnm] at hin
    exact (agrees_within hw hl hm hnm hin).2 hρ

theorem Stay.header (h : r.Stay e l.header m n) : r.block m = l.header := by
  have hin := h.within m le_rfl h.le
  obtain ⟨k, rfl⟩ := Nat.exists_eq_succ_of_ne_zero
    (fun hm : m = 0 => ne_header_zero hw hl (hm ▸ hin))
  by_contra hne
  exact h.enter k rfl (inLoop_pred hw (h.le.trans_lt h.lt).le hin hne)

/-- The round is the number of times that control has gone back. -/
theorem Stay.round_eq (h : r.Stay e l.header m n) (hmk : m ≤ k) (hkn : k ≤ n) :
    r.round l k = r.laps l m k := by
  induction k, hmk using Nat.le_induction with
  | base =>
    obtain ⟨k, rfl⟩ := Nat.exists_eq_succ_of_ne_zero
      (fun hm : m = 0 => ne_header_zero hw hl (hm ▸ h.within m le_rfl h.le))
    rw [round_of_enter hw hl (h.header hw hl) (h.enter k rfl), laps_self]
  | succ k hmk ih =>
    have hin := h.within k hmk (by omega)
    have hc := (LoopForest.contains_iff hw.inArena hw.entry hl).2 hin
    rw [laps_succ hmk, ← ih (by omega)]
    by_cases hb : r.block (k + 1) = l.header
    · rw [round_of_back hw hl hb hin, if_pos ⟨hc, hb⟩]
    · rw [round_succ_of_ne hb, if_neg fun h => hb h.2, add_zero]

theorem header_of_leave {stay : StayTest} (hst : StayTest.ofLoop? f l = some stay)
    (hn : n < r.last) (hin : f.InLoop e l.header (r.block n))
    (hleave : ¬ f.InLoop e l.header (r.block (n + 1))) : r.block n = l.header := by
  have hexit : l.exiting = [l.header] := by
    simp only [StayTest.ofLoop?, Option.bind_eq_bind, Option.bind_eq_some_iff] at hst
    obtain ⟨-, -, _, hg, -⟩ := hst
    exact of_guard hg
  have hr := LoopForest.region_is hw.inArena hw.entry hl
  have hmem := (Region.mem_exiting hr).2 ⟨hin, _, edge hn, hleave⟩
  rwa [← LoopForest.exiting_eq hl, hexit, List.mem_singleton] at hmem

/-- Between coming in and leaving, control goes back as often as the trip count says. -/
theorem Sized.laps_eq {p : Poly} (hs : r.Sized e σ l p) (h : r.Stay e l.header m n)
    (hρ : r.Agrees e σ ρ (some l.id) m) : (r.laps l m n : Int) = max 0 (p.eval ρ) := by
  obtain ⟨stay, hst, -⟩ := id hs
  have hagree := (agrees_within hw hl (on_of_lt h.lt) h.le h.within).1 hρ
  rw [← h.round_eq hw hl h.le le_rfl]
  exact (hs.round_eq hw hl h.lt (header_of_leave hw hl hst h.lt (h.within n h.le le_rfl) h.leave)
    h.leave hagree).1

/-- What is right of a value where it is computed is right as long as it is current. -/
theorem Right.current {x : Evolution} (hx : r.Right e σ (some l.id) v x) (hn : r.On n)
    (hin : f.InLoop e l.header (r.block n)) (hv : r.Current e l n v)
    (hρ : r.Agrees e σ ρ (some l.id) n) : x.Holds ρ (r.round l n) (v.eval args (r.env n)) := by
  have hdirect : f.Ahead e (r.block n) v → x.Holds ρ (r.round l n) (v.eval args (r.env n)) := by
    intro ha
    have := hx n ρ hn ((inScope_some hl).2 hin) ⟨hv.usable, ha⟩ hρ
    rwa [turn_some hl] at this
  cases v with
  | inst i =>
    obtain ⟨d, hd, hi, hdom | ⟨hind, k, hkn, hk, hwithin, hround⟩⟩ := hv.computed i rfl
    · exact hdirect ⟨d, hd, hi, hdom.trans hin.dom⟩
    · obtain ⟨j, hkj, hjn, hj, hafter⟩ := exists_last hk hkn
      have hjn' : r.Within e l.header j n := fun a h₁ h₂ => hwithin a (by omega) h₂
      have hsame : r.round l j = r.round l n := by
        have h₁ := round_mono hw hl hkj fun a h₁ h₂ => hwithin a h₁ (by omega)
        have h₂ := round_mono hw hl hjn hjn'
        omega
      have hval := hx j ρ (hn.of_le hjn) ((inScope_some hl).2 (hj ▸ hind))
        ⟨hv.usable, d, hd, hi, hj ▸ .of_reach (leads hw (hn.of_le hjn).le)⟩
        ((agrees_within hw hl hn hjn hjn').2 hρ)
      rwa [turn_some hl, hsame, Value.eval, ← env_eq hw hd hi hn hjn hafter] at hval
  | _ => exact hdirect trivial

end

end Run

end Func

/-! A sample function and what its runs go through. -/

namespace Func

variable {f : Func} {args : List Int} {mem : Memory} {r : f.Run args mem} {e b : BlockId}
  {l : Loop} {m n : Nat}

open Build in
/-- The bound of the loop is known only when the function runs. -/
def boundedLoop : Func := .build "f" do
  let n ← param "n" .int
  discard <| countedLoop "x" (.const 0) n 1 fun i => do
    discard <| value (.binary .add (← value (.binary .mul i (.const 3))) n)
  discard <| emit (.ret none)

theorem verify_boundedLoop : boundedLoop.verify = .ok () := eq_ok_of_isOk (by decide +kernel)

/-- The block of the visit after `n` steps. -/
def blockAt? (f : Func) (args : List Int) (mem : Memory) (n : Nat) : Option BlockId :=
  (f.visitAt? args mem n).map Visit.block

theorem Run.blockAt?_eq (r : f.Run args mem) (hn : n ≤ r.last) :
    f.blockAt? args mem n = some (r.block n) := by
  rw [blockAt?, r.visitAt?_eq hn]
  rfl

theorem exists_run_of_blockAt? (h : f.blockAt? args mem n = some b) :
    ∃ r : f.Run args mem, r.last = n := by
  obtain ⟨v, hv, -⟩ := Option.map_eq_some_iff.1 h
  obtain ⟨r, hlast, -⟩ := exists_run hv
  exact ⟨r, hlast⟩

/-- Whether the visit is to a block of the loop. -/
def visits? (f : Func) (args : List Int) (mem : Memory) (l : Loop) (n : Nat) : Bool :=
  (f.blockAt? args mem n).any l.contains

theorem Run.visits?_iff (hw : f.WellFormed e) (hl : l ∈ f.forest.loops) (hn : n ≤ r.last) :
    f.visits? args mem l n ↔ f.InLoop e l.header (r.block n) := by
  rw [visits?, r.blockAt?_eq hn, Option.any_some,
    LoopForest.contains_iff hw.inArena hw.entry hl]

theorem Run.stay_of_visits? (hw : f.WellFormed e) (hl : l ∈ f.forest.loops) (hmn : m ≤ n)
    (hn : n < r.last) (hin : ∀ k ∈ List.range' m (n + 1 - m), f.visits? args mem l k)
    (henter : ¬ f.visits? args mem l (m - 1)) (hleave : ¬ f.visits? args mem l (n + 1)) :
    r.Stay e l.header m n := by
  refine ⟨hmn, fun k h₁ h₂ => ?_, ?_, hn, ?_⟩
  · exact (visits?_iff hw hl (by omega)).1 (hin k (List.mem_range'_1.2 ⟨h₁, by omega⟩))
  · rintro k rfl
    rwa [← visits?_iff hw hl (by omega)]
  · rwa [← visits?_iff hw hl hn]

theorem exists_stay_boundedLoop (hw : boundedLoop.WellFormed e) : ∃ l ∈ boundedLoop.forest.loops,
    ∃ r : boundedLoop.Run [2] fun _ => 0, r.last = 8 ∧ r.Stay e l.header 1 7 := by
  obtain ⟨l, hl⟩ := List.exists_mem_of_ne_nil boundedLoop.forest.loops (by decide +kernel)
  obtain ⟨r, hlast⟩ := exists_run_of_blockAt?
    (show boundedLoop.blockAt? [2] (fun _ => 0) 8 = some ⟨4⟩ by decide +kernel)
  refine ⟨l, hl, r, hlast, Run.stay_of_visits? hw hl (by omega) (by omega) ?_ ?_ ?_⟩ <;>
  · revert l
    decide +kernel

end Func

namespace Engine

open Func Run

variable {f : Func} {s : Session} {e : BlockId} {l : Loop} {args : List Int} {mem : Memory}
  {m n : Nat} {ρ : Symbol → Int}

/-- Invariants and recurrences hold on every round, under any valuation of the unknowns by what they
are named after. -/
theorem evolution_holds {v : Value} (hv : f.verify = .ok ()) (he : f.entry? = some e)
    (hl : l ∈ f.forest.loops) (hs : s.Honest f) (r : f.Run args mem) (hm : r.On m) (hn : r.On n)
    (hin : r.Within e l.header (min m n) (max m n)) (hcur : r.Current e l n v)
    (hρ : r.Agrees e ((ofFunc f f.forest).evolution v (some l.id) s).2.symbols ρ (some l.id) m) :
    (∀ p, ((ofFunc f f.forest).evolution v (some l.id) s).1 = .invariant p →
      v.eval args (r.env n) = p.eval ρ) ∧
    ∀ start step id, ((ofFunc f f.forest).evolution v (some l.id) s).1 =
        .recurrence start step id →
      id = l.id ∧ v.eval args (r.env n) = start.eval ρ + r.round l n * step.eval ρ := by
  obtain ⟨e', hw⟩ := wellFormed_of_verify hv
  obtain rfl := Option.some.inj (he.symm.trans hw.entry)
  have hgives := (answers_gives hw (Describe.maxDepth + 1) v (some l.id) s hs
    (SymbolTable.le_refl _)).1
  have hhold := (right_of_gives (r := r) hw hgives).current hw hl hn
    (hin n (min_le_right ..) (le_max_right ..)) hcur (hρ.move hw hl hm hn hin)
  constructor
  · intro p hp
    rw [show (Describe.value _ _ _ _ _ s).1 = _ from hp] at hhold
    exact hhold
  · intro start step id hx
    rw [show (Describe.value _ _ _ _ _ s).1 = _ from hx] at hhold hgives
    refine ⟨(Option.some.inj (hgives.scope_eq rfl)).symm, ?_⟩
    rw [show v.eval args (r.env n) = _ from hhold, mul_comm (r.round l n : Int)]

theorem evolution_holds_boundedLoop : ∃ l ∈ boundedLoop.forest.loops,
    ∃ (r : boundedLoop.Run [2] fun _ => 0) (ρ : Symbol → Int),
      ((ofFunc boundedLoop boundedLoop.forest).evolution (.inst ⟨4⟩) (some l.id) .start).1 =
        .recurrence (.symbol 0) (.const 3) l.id ∧
      r.env 5 ⟨4⟩ = (Poly.symbol 0).eval ρ + r.round l 5 * (Poly.const 3).eval ρ := by
  obtain ⟨e, hw⟩ := wellFormed_of_verify verify_boundedLoop
  obtain ⟨l, hl, r, hlast, hstay⟩ := exists_stay_boundedLoop hw
  obtain ⟨ρ, hρ⟩ := DistinctNames.exists_agrees (by decide +kernel) r e ((ofFunc boundedLoop
    boundedLoop.forest).evolution (.inst ⟨4⟩) (some l.id) .start).2.symbols (some l.id) 1
  have hanswer : ((ofFunc boundedLoop boundedLoop.forest).evolution (.inst ⟨4⟩) (some l.id)
      .start).1 = .recurrence (.symbol 0) (.const 3) l.id := by
    clear hstay hρ
    revert l
    decide +kernel
  have hblock : r.block 5 = ⟨2⟩ := Option.some.inj ((r.blockAt?_eq (by omega)).symm.trans
    (by decide +kernel))
  have hcur : r.Current e l 5 (.inst ⟨4⟩) := by
    refine ⟨by constructor <;> decide +kernel, ?_⟩
    rintro _ ⟨⟩
    refine ⟨⟨2⟩, by decide +kernel, by decide +kernel, .inr ⟨?_, 5, le_rfl, hblock, ?_, rfl⟩⟩
    · exact hblock ▸ hstay.within 5 (by omega) (by omega)
    · exact fun k h₁ h₂ => hstay.within k (by omega) (by omega)
  refine ⟨l, hl, r, ρ, hanswer, ?_⟩
  exact ((evolution_holds verify_boundedLoop hw.entry hl (.fresh rfl) r
    (on_of_lt (by omega)) (on_of_lt (by omega))
    (fun k h₁ h₂ => hstay.within k (by omega) (by omega)) hcur hρ).2 _ _ _ hanswer).2

/-- From coming into the loop to leaving it, control goes back to the header as often as the count
says, and never if the count is negative. -/
theorem tripCount_exact {p : Poly} (hv : f.verify = .ok ()) (he : f.entry? = some e)
    (hl : l ∈ f.forest.loops) (hs : s.Honest f)
    (hp : ((ofFunc f f.forest).tripCount l.id s).1 = some p) (r : f.Run args mem)
    (hstay : r.Stay e l.header m n)
    (hρ : r.Agrees e ((ofFunc f f.forest).tripCount l.id s).2.symbols ρ (some l.id) m) :
    (r.laps l m n : Int) = max 0 (p.eval ρ) := by
  obtain ⟨e', hw⟩ := wellFormed_of_verify hv
  obtain rfl := Option.some.inj (he.symm.trans hw.entry)
  exact ((asks_tripCount (r := r) hw hl s hs (SymbolTable.le_refl _)).1 p hp).2.laps_eq hw hl hstay
    hρ

theorem tripCount_exact_boundedLoop : ∃ l ∈ boundedLoop.forest.loops,
    ∃ (r : boundedLoop.Run [2] fun _ => 0) (ρ : Symbol → Int),
      ((ofFunc boundedLoop boundedLoop.forest).tripCount l.id .start).1 = some (.symbol 0) ∧
      (r.laps l 1 7 : Int) = max 0 ((Poly.symbol 0).eval ρ) := by
  obtain ⟨e, hw⟩ := wellFormed_of_verify verify_boundedLoop
  obtain ⟨l, hl, r, hlast, hstay⟩ := exists_stay_boundedLoop hw
  obtain ⟨ρ, hρ⟩ := DistinctNames.exists_agrees (by decide +kernel) r e ((ofFunc boundedLoop
    boundedLoop.forest).tripCount l.id .start).2.symbols (some l.id) 1
  have hanswer : ((ofFunc boundedLoop boundedLoop.forest).tripCount l.id .start).1 =
      some (.symbol 0) := by
    clear hstay hρ
    revert l
    decide +kernel
  exact ⟨l, hl, r, ρ, hanswer,
    tripCount_exact verify_boundedLoop hw.entry hl (.fresh rfl) hanswer r hstay hρ⟩

end Engine

end LoopFusion
