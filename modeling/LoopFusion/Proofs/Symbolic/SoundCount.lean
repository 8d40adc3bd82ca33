import LoopFusion.Proofs.Symbolic.Count
import LoopFusion.Proofs.Symbolic.Sound

/-!
What a trip count says of a run: behind the header of the loop the round is below the count, and
when control leaves through the header the round is the count.
-/

namespace LoopFusion.Func

open Relation LoopFusion.Flow

/-- An honest engine has answered that the loop has this trip count. -/
def Counted (f : Func) (l : Loop) (p : Poly) : Prop :=
  ∃ s : Session, s.Honest f ∧ (Describe.tripCount f f.forest l.id s).1 = some p

theorem Fixed.move {f : Func} {e b c : BlockId} {l : Loop} {v : Value} (hw : f.WellFormed e)
    (hl : l ∈ f.forest.loops) (hv : f.Fixed e (some l.id) b v) (hb : f.InLoop e l.header b)
    (hc : f.InLoop e l.header c) : f.Fixed e (some l.id) c v := by
  refine ⟨hv.named, ⟨hv.defined.usable, ?_⟩, hv.before⟩
  cases v with
  | inst i =>
    obtain ⟨d, hd, hid, hdom⟩ := hv.defined.ahead
    have hout := not_inLoop_of_before hw hl (hv.before i rfl d hd hid)
    exact ⟨d, hd, hid, (hb.dom_of_outside hdom hout).trans hc.dom⟩
  | _ => trivial

namespace Run

variable {f : Func} {e : BlockId} {l : Loop} {args : List Int} {mem : Memory} {r : f.Run args mem}
  {m n : Nat} {ρ : Symbol → Int} {σ : SymbolTable} {p : Poly}

theorem turn_some (hl : l ∈ f.forest.loops) : r.turn (some l.id) n = r.round l n := by
  rw [turn, Option.bind_some, LoopForest.loop?_id hl, Option.elim_some]

/-- The values before a loop do not change as long as control is in it. -/
theorem eval_fixed {v : Value} (hw : f.WellFormed e) (hl : l ∈ f.forest.loops)
    (hv : f.Fixed e (some l.id) (r.block n) v) (hn : r.On n) (hmn : m ≤ n)
    (hin : r.Within e l.header m n) : v.eval args (r.env n) = v.eval args (r.env m) := by
  refine Value.eval_congr fun i hi => ?_
  obtain ⟨d, hd, hid, -⟩ := hi ▸ hv.defined.ahead
  exact env_within hw hn hmn hin hd hid (not_inLoop_of_before hw hl (hv.before i hi d hd hid))

theorem agrees_within (hw : f.WellFormed e) (hl : l ∈ f.forest.loops) (hn : r.On n) (hmn : m ≤ n)
    (hin : r.Within e l.header m n) :
    r.Agrees e σ ρ (some l.id) m ↔ r.Agrees e σ ρ (some l.id) n := by
  have hm := hin m le_rfl hmn
  have hn' := hin n hmn le_rfl
  constructor
  · intro h v s hv hs
    rw [h v s (hv.move hw hl hn' hm) hs, eval_fixed hw hl hv hn hmn hin]
  · intro h v s hv hs
    have hv' := hv.move hw hl hm hn'
    rw [h v s hv' hs, eval_fixed hw hl hv' hn hmn hin]

/-- The polynomial counts how often the test of the loop holds. -/
def Sized (r : f.Run args mem) (e : BlockId) (σ : SymbolTable) (l : Loop) (p : Poly) : Prop :=
  ∃ stay, StayTest.ofLoop? f l = some stay ∧
    ∀ n ρ, r.On n → f.InLoop e l.header (r.block n) → r.Agrees e σ ρ (some l.id) n →
      ∃ bound, Counts stay.test (stay.iv.start.eval args (r.env n)) bound stay.iv.step
          (p.eval ρ) ∧
        ∀ m ≤ n, r.Within e l.header m n → r.block m = l.header →
          stay.bound.eval args (r.env m) = bound

section

variable (hw : f.WellFormed e) (hl : l ∈ f.forest.loops)

include hw hl

theorem asks_tripCount : Asks (Session.Honest f) σ (Describe.tripCount f f.forest l.id)
    fun count? => ∀ p, count? = some p → f.Counted l p ∧ r.Sized e σ l p := by
  suffices h : Asks (Session.Honest f) σ (Describe.tripCount f f.forest l.id)
      fun count? => ∀ p, count? = some p → r.Sized e σ l p from
    fun s hs hle => ⟨fun p hp => ⟨⟨s, hs, hp⟩, (h s hs hle).1 p hp⟩, (h s hs hle).2⟩
  unfold Describe.tripCount
  rw [LoopForest.loop?_id hl, Option.bind_some]
  cases hst : StayTest.ofLoop? f l with
  | none => exact asks_pure nofun
  | some stay =>
    have hof := StayTest.of_ofLoop? hst
    obtain ⟨pre, latch, hc⟩ := LoopForest.exists_counting hw hl hof.iv
    refine (answers_value (r := r) hw _ _ _).bind (fun x => ?_) fun x hx =>
      (answers_value (r := r) hw _ _ _).bind (fun y => ?_) fun y hy => ?_
    · refine (Describe.grows_value f _ _ _ _).bind fun y => ?_
      cases x <;> cases y <;> exact Inquiry.grows_pure _
    · cases x <;> cases y <;> exact Inquiry.grows_pure _
    · cases x with
      | invariant b =>
        cases y with
        | invariant s =>
          refine asks_pure fun p hp => ⟨stay, hst, fun n ρ hn hin hρ => ⟨b.eval ρ, ?_, ?_⟩⟩
          · have hstart := hy n ρ hn ((inScope_some hl).2 hin)
              ((hc.start_defined hw).trans ((hc.dom_pre hw).trans hin.dom)) hρ
            rw [show stay.iv.start.eval args (r.env n) = s.eval ρ from hstart]
            exact Counts.of_tripCount? hc.counter.step_ne hp
          · intro m hmn hwithin hb
            refine hx m ρ (hn.of_le hmn) ((inScope_some hl).2 (hwithin m le_rfl hmn)) ?_
              ((agrees_within hw hl hn hmn hwithin).2 hρ)
            exact hb ▸ bound_defined hw hof hl
        | _ => exact asks_pure nofun
      | _ => exact asks_pure nofun

theorem Sized.round_lt (hs : r.Sized e σ l p) (hn : r.On n)
    (hin : f.InLoop e l.header (r.block n)) (hb : r.block n ≠ l.header)
    (hρ : r.Agrees e σ ρ (some l.id) n)
    (hne : ∀ stay, StayTest.ofLoop? f l = some stay → stay.test = .ne → 0 ≤ p.eval ρ) :
    (r.round l n : Int) < p.eval ρ := by
  obtain ⟨stay, hst, hs⟩ := hs
  obtain ⟨bound, hcount, hbound⟩ := hs n ρ hn hin hρ
  refine hcount.lt (hne stay hst) fun j hj => ?_
  refine holds_round hw (StayTest.of_ofLoop? hst) hl hn hin rfl hbound j ?_
  exact (Nat.lt_or_eq_of_le hj).imp_right fun h => ⟨h, hb⟩

theorem Sized.round_eq (hs : r.Sized e σ l p) (hn : n < r.last) (hb : r.block n = l.header)
    (hout : ¬ f.InLoop e l.header (r.block (n + 1))) (hρ : r.Agrees e σ ρ (some l.id) n) :
    (r.round l n : Int) = max 0 (p.eval ρ) ∧
      ∀ stay, StayTest.ofLoop? f l = some stay → stay.test = .ne → 0 ≤ p.eval ρ := by
  obtain ⟨stay, hst, hs⟩ := hs
  have hof := StayTest.of_ofLoop? hst
  have hin : f.InLoop e l.header (r.block n) := hb ▸ LoopForest.headed hw.inArena hw.entry hl
  have hself : r.Within e l.header n n := fun k h₁ h₂ => by rwa [show k = n by omega]
  obtain ⟨bound, hcount, hbound⟩ := hs n ρ (on_of_lt hn) hin hρ
  have heq := hcount.eq (n := r.round l n) (fun j hj =>
    holds_round hw hof hl (on_of_lt hn) hin rfl hbound j (.inl hj)) ?_
  · exact ⟨heq.1, fun stay' hst' => Option.some.inj (hst.symm.trans hst') ▸ heq.2⟩
  · intro hf
    obtain ⟨pre, latch, hc⟩ := LoopForest.exists_counting hw hl hof.iv
    refine hout ((inLoop_succ_iff hw hof hl hn hb).2 ?_)
    rwa [hc.env_phi hw hl (on_of_lt hn) hin, hbound n le_rfl hself hb]

end

end Run

end LoopFusion.Func
