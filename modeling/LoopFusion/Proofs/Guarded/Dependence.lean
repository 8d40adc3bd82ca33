import LoopFusion.Proofs.Guarded.Arithmetic
import LoopFusion.Proofs.Memory.Independence
import LoopFusion.Proofs.Symbolic.Algebra
import LoopFusion.Proofs.Symbolic.Parts

/-!
Trip counts and dependences, answered with the arithmetic of words. In a verified function every
question is answered, and as it is without bounds. The coefficients of polynomials need no guards,
their arithmetic looks for itself whether a result fits.
-/

namespace LoopFusion

open Func.Run

namespace Counts

variable {test : Comparison} {s b p q : Poly} {step c : Int}

theorem fits_pred_of_neg (hq : q.Normal) (heq : ∀ ρ, p.eval ρ = -q.eval ρ)
    (hc : p.const? = some c) : Fits (c - 1) := by
  have hnegated : Fits (-c) := by
    apply hq.fits_const?
    apply hq.const?_eq_some_iff.2
    intro ρ
    rw [← Poly.eval_of_const? (ρ := ρ) hc, heq, neg_neg]
  rw [Fits] at *
  omega

theorem fits_pred_of_succ (hq : q.Normal) (hadd : q.add? (.const 1) = some p)
    (hc : p.const? = some c) : Fits (c - 1) := by
  apply hq.fits_const?
  apply hq.const?_eq_some_iff.2
  intro ρ
  have heval := Poly.eval_add (ρ := ρ) hadd
  rw [Poly.eval_const, Poly.eval_of_const? hc] at heval
  omega

/-- One less than a known trip count is a word. Where the count is a difference, the negated
difference is a word, too. -/
theorem fits_pred_of_tripCount? (hs : s.Normal) (hb : b.Normal) (hstep : step ≠ 0)
    (h : tripCount? test s b step = some p) (hc : p.const? = some c) : Fits (c - 1) := by
  rw [tripCount?] at h
  split at h
  case h_1 x y hx hy =>
    obtain ⟨n, hn, rfl⟩ := Option.map_eq_some_iff.1 h
    obtain ⟨hnonneg, hfits⟩ := nonneg_of_stepsWhile? hstep hn
    obtain rfl : n = c := (Poly.eval_const n).symm.trans (Poly.eval_of_const? (ρ := fun _ => 0) hc)
    rw [Fits] at *
    omega
  case h_2 =>
    obtain ⟨up, hup, h⟩ := Option.bind_eq_some_iff.1 h
    obtain ⟨down, hdown, h⟩ := Option.bind_eq_some_iff.1 h
    have hopposite : ∀ ρ, up.eval ρ = -down.eval ρ := by
      intro ρ
      rw [Poly.eval_sub hup, Poly.eval_sub hdown, neg_sub]
    have hopposite' : ∀ ρ, down.eval ρ = -up.eval ρ := fun ρ => by rw [hopposite, neg_neg]
    have hup := hb.sub hs hup
    have hdown := hs.sub hb hdown
    split at h
    · exact fits_pred_of_neg hdown (Option.some.inj h ▸ hopposite) hc
    · exact fits_pred_of_neg hdown (Option.some.inj h ▸ hopposite) hc
    · exact fits_pred_of_succ hup h hc
    · exact fits_pred_of_neg hup (Option.some.inj h ▸ hopposite') hc
    · exact fits_pred_of_neg hup (Option.some.inj h ▸ hopposite') hc
    · exact fits_pred_of_succ hdown h hc
    · cases h

end Counts

/-- The polynomials are in normal form, and the last iteration is a word. -/
structure Subscript.Normal (s : Subscript) : Prop where
  start : s.start.Normal
  stride : s.stride.Normal
  last : ∀ n, s.last? = some n → Fits n

namespace Guarded

/-- A question that may fail to be answered. -/
abbrev Query := StateT Session Option

def ask {α : Type} (q : Inquiry α) : Query α := fun s => some (q s)

def tripCount? (test : Comparison) (start bound : Poly) (step : Int) : Option (Option Poly) :=
  match start.const?, bound.const? with
  | some s, some b => do return (← stepsWhile? test s b step).map .const
  | _, _ => some (symbolicSteps? test start bound step)

section

variable (f : Func) (t : LoopForest)

def value (v : Value) (scope : Option LoopId) : Query Evolution :=
  ask (Describe.value f t (Describe.maxDepth + 1) v scope)

def tripCount (l : LoopId) : Query (Option Poly) :=
  match (t.loop? l).bind (StayTest.ofLoop? f) with
  | none => return none
  | some stay => do
    let bound ← value f t stay.bound (some l)
    let start ← value f t stay.iv.start (some l)
    match bound, start with
    | .invariant b, .invariant s => tripCount? stay.test s b stay.iv.step
    | _, _ => return none

def last (scope : Option LoopId) : Query (Option Int) :=
  match scope with
  | none => return none
  | some l => do
    match (← tripCount f t l).bind Poly.const? with
    | none => return none
    | some c => return some (← checked (c - 1))

def ofAccess (access : InstId) : Query (Option Subscript) :=
  match (f.op? access).bind Operation.address? with
  | none => return none
  | some addr =>
    match f.basePointer? addr with
    | none => return none
    | some base => do
      let scope := (f.owner? access).bind t.loopFor?
      let baseSym ← ask (f.unknown (.param base))
      match Subscript.parts? (← value f t addr scope) with
      | none => return none
      | some (start, stride) =>
        match start.sub? baseSym with
        | none => return none
        | some start => return some ⟨start, stride, ← last f t scope⟩

variable (lib : Library)

def conflict (s d : Subscript) : Option Conflict :=
  match (d.start.sub? s.start).bind Poly.const?, s.stride.const?, d.stride.const? with
  | some c, some a, some b => ofEquation lib a b c s.last? d.last?
  | _, _, _ => some .possible

def answer (src dst : InstId) (sameIteration : Bool) : Query (Option Dependence) :=
  match f.op? src, f.op? dst with
  | some srcOp, some dstOp =>
    if !srcOp.accessesMemory || !dstOp.accessesMemory then return none
    else
      let kind := DependenceKind.ofWrites srcOp.writesMemory dstOp.writesMemory
      match Oracle.sameArray? f srcOp dstOp with
      | none => return some (.unresolved src dst kind true)
      | some false => return none
      | some true => do
        let s ← ofAccess f t src
        let d ← ofAccess f t dst
        match s, d with
        | some s, some d => return Oracle.report src dst kind sameIteration (← conflict lib s d)
        | _, _ => return some (.unresolved src dst kind false)
  | _, _ => return none

end

variable {f : Func} {e : BlockId} {lib : Library} {α β : Type} {g : Query α} {q : Inquiry α}
  {k : α → Query β} {r : α → Inquiry β} {P : α → Prop} {Q : β → Prop} {a : α}

/-- From every honest session the question is answered, as it is without bounds, and the answer
satisfies `P`. -/
def Answers (f : Func) (g : Query α) (q : Inquiry α) (P : α → Prop) : Prop :=
  ∀ s : Session, s.Honest f → g s = some (q s) ∧ (q s).2.Honest f ∧ P (q s).1

theorem answers_pure (h : P a) : Answers f (pure a) (pure a) P := fun _ hs => ⟨rfl, hs, h⟩

theorem answers_lift {o : Option α} (ho : o = some a) (h : P a) :
    Answers f (liftM o : Query α) (pure a) P := by
  subst ho
  exact answers_pure h

theorem answers_ask (h : ∀ σ, Asks (Session.Honest f) σ q P) : Answers f (ask q) q P := by
  intro s hs
  obtain ⟨ha, hs'⟩ := h _ s hs (SymbolTable.le_refl _)
  exact ⟨rfl, hs', ha⟩

theorem Answers.bind (hq : Answers f g q P) (hr : ∀ a, P a → Answers f (k a) (r a) Q) :
    Answers f (g >>= k) (q >>= r) Q := by
  intro s hs
  obtain ⟨hg, hs', ha⟩ := hq s hs
  obtain ⟨hk, hs'', hb⟩ := hr _ ha _ hs'
  refine ⟨?_, hs'', hb⟩
  change (g s).bind (fun x => k x.1 x.2) = _
  rw [hg]
  exact hk

theorem closed_normal : Poly.Closed Poly.Normal where
  const _ := Poly.normal_const
  symbol := Poly.normal_symbol
  add := Poly.Normal.add
  neg := Poly.Normal.neg
  mul _ := Poly.Normal.mul

theorem normal_of_parts? {z : Evolution} {parts : Poly × Poly} (hz : z.All Poly.Normal)
    (h : Subscript.parts? z = some parts) : parts.1.Normal ∧ parts.2.Normal := by
  cases z with
  | invariant p =>
    obtain rfl := Option.some.inj h
    exact ⟨hz, Poly.normal_const (by decide : Fits 0)⟩
  | recurrence s d l =>
    obtain rfl := Option.some.inj h
    exact hz
  | unknown => cases h

theorem tripCount?_eq {test : Comparison} {start bound : Poly} {step : Int} (hs : start.Normal)
    (hb : bound.Normal) (hstep : Fits step) (hne : step ≠ 0) :
    tripCount? test start bound step = some (LoopFusion.tripCount? test start bound step) := by
  cases hx : start.const? with
  | none => simp only [tripCount?, LoopFusion.tripCount?, hx]
  | some x =>
    cases hy : bound.const? with
    | none => simp only [tripCount?, LoopFusion.tripCount?, hx, hy]
    | some y =>
      simp only [tripCount?, LoopFusion.tripCount?, hx, hy, Option.bind_eq_bind, Option.bind_some,
        Option.pure_def, stepsWhile?_eq (hs.fits_const? hx) (hb.fits_const? hy) hstep hne]

section

variable (hw : f.WellFormed e)

include hw

theorem answers_value (v : Value) (scope : Option LoopId) : Answers f (value f f.forest v scope)
    (Describe.value f f.forest (Describe.maxDepth + 1) v scope) (Evolution.All Poly.Normal) := by
  apply answers_ask
  intro σ s hs hle
  obtain ⟨hgives, hs'⟩ := answers_gives hw _ v scope s hs hle
  exact ⟨hgives.all closed_normal, hs'⟩

theorem answers_tripCount (l : LoopId) : Answers f (tripCount f f.forest l)
    (Describe.tripCount f f.forest l) fun p? =>
      ∀ c, p?.bind Poly.const? = some c → Fits (c - 1) := by
  unfold tripCount Describe.tripCount
  cases hstay : (f.forest.loop? l).bind (StayTest.ofLoop? f) with
  | none => exact answers_pure nofun
  | some stay =>
    obtain ⟨loop, hloop, hst⟩ := Option.bind_eq_some_iff.1 hstay
    obtain ⟨hl, -⟩ := LoopForest.mem_of_loop? hloop
    obtain ⟨pre, latch, -, -, hcounter⟩ :=
      LoopForest.exists_counter hl (StayTest.of_ofLoop? hst).iv
    apply (answers_value hw _ _).bind
    intro bound hbound
    apply (answers_value hw _ _).bind
    intro start hstart
    cases bound with
    | invariant b =>
      cases start with
      | invariant s =>
        apply answers_lift (tripCount?_eq hstart hbound hcounter.fits_step hcounter.step_ne)
        intro c hc
        obtain ⟨p, hp, hc⟩ := Option.bind_eq_some_iff.1 hc
        exact Counts.fits_pred_of_tripCount? hstart hbound hcounter.step_ne hp hc
      | _ => exact answers_pure nofun
    | _ => exact answers_pure nofun

theorem answers_last (scope : Option LoopId) : Answers f (last f f.forest scope)
    (Subscript.last (.ofFunc f f.forest) scope) fun last? => ∀ n, last? = some n → Fits n := by
  cases scope with
  | none => exact answers_pure nofun
  | some l =>
    apply (answers_tripCount hw l).bind
    intro p? hp
    cases hc : p?.bind Poly.const? with
    | none => exact answers_pure nofun
    | some c =>
      have hfits := hp c hc
      simp only [checked_of_fits hfits]
      apply answers_pure
      rintro n ⟨⟩
      exact hfits

theorem answers_ofAccess (access : InstId) : Answers f (ofAccess f f.forest access)
    (Subscript.ofAccess f f.forest (.ofFunc f f.forest) access) fun s? =>
      ∀ s, s? = some s → s.Normal := by
  unfold ofAccess Subscript.ofAccess
  cases (f.op? access).bind Operation.address? with
  | none => exact answers_pure nofun
  | some addr =>
    dsimp only
    cases f.basePointer? addr with
    | none => exact answers_pure nofun
    | some base =>
      have hname : ∀ σ, Asks (Session.Honest f) σ (f.unknown (.param base)) Poly.Normal := by
        intro σ s hs hle
        obtain ⟨⟨n, hn, -⟩, hs'⟩ := asks_unknown (fun _ _ => .named) _ s hs hle
        exact ⟨hn ▸ Poly.normal_symbol n, hs'⟩
      apply (answers_ask hname).bind
      intro sym hsym
      apply (answers_value hw _ _).bind
      intro z hz
      cases hparts : Subscript.parts? z with
      | none => exact answers_pure nofun
      | some parts =>
        obtain ⟨hstart, hstride⟩ := normal_of_parts? hz hparts
        dsimp only
        cases hsub : parts.1.sub? sym with
        | none => exact answers_pure nofun
        | some start =>
          apply (answers_last hw _).bind
          intro last? hlast
          apply answers_pure
          rintro s ⟨⟩
          exact ⟨hstart.sub hsym hsub, hstride, hlast⟩

end

theorem conflict_eq (hlib : lib.Sound) {s d : Subscript} (hs : s.Normal) (hd : d.Normal) :
    conflict lib s d = some (s.conflict d) := by
  cases hc : (d.start.sub? s.start).bind Poly.const? with
  | none => simp only [conflict, Subscript.conflict, hc]
  | some c =>
    cases ha : s.stride.const? with
    | none => simp only [conflict, Subscript.conflict, hc, ha]
    | some a =>
      cases hb : d.stride.const? with
      | none => simp only [conflict, Subscript.conflict, hc, ha, hb]
      | some b =>
        obtain ⟨diff, hdiff, hdiffc⟩ := Option.bind_eq_some_iff.1 hc
        have hoffset := (hd.start.sub hs.start hdiff).fits_const? hdiffc
        simp only [conflict, Subscript.conflict, hc, ha, hb]
        exact ofEquation_eq hlib (hs.stride.fits_const? ha) hoffset hs.last hd.last

theorem answers_answer (hw : f.WellFormed e) (hlib : lib.Sound) (x y : InstId) (same : Bool) :
    Answers f (answer f f.forest lib x y same)
      (Oracle.answer f f.forest (.ofFunc f f.forest) x y same) fun _ => True := by
  cases hx : f.op? x with
  | none =>
    simp only [answer, Oracle.answer, hx]
    exact answers_pure trivial
  | some opx =>
    cases hy : f.op? y with
    | none =>
      simp only [answer, Oracle.answer, hx, hy]
      exact answers_pure trivial
    | some opy =>
      simp only [answer, Oracle.answer, hx, hy]
      split
      case isTrue => exact answers_pure trivial
      case isFalse =>
        cases Oracle.sameArray? f opx opy with
        | none => exact answers_pure trivial
        | some one =>
          cases one with
          | false => exact answers_pure trivial
          | true =>
            apply (answers_ofAccess hw x).bind
            intro s? hs
            apply (answers_ofAccess hw y).bind
            intro d? hd
            cases s? with
            | none => exact answers_pure trivial
            | some s =>
              cases d? with
              | none => exact answers_pure trivial
              | some d =>
                simp only [conflict_eq hlib (hs s rfl) (hd d rfl)]
                exact answers_pure trivial

/-- In a verified function no trip count and no dependence leaves the words. -/
theorem arithmetic_safe (hv : f.verify = .ok ()) (hlib : lib.Sound) {s : Session}
    (hs : s.Honest f) :
    (∀ l, tripCount f f.forest l s = some (Describe.tripCount f f.forest l s)) ∧
    ∀ x y same, answer f f.forest lib x y same s =
      some (Oracle.answer f f.forest (.ofFunc f f.forest) x y same s) := by
  obtain ⟨e, hw⟩ := Func.wellFormed_of_verify hv
  exact ⟨fun l => (answers_tripCount hw l s hs).1,
    fun x y same => (answers_answer hw hlib x y same s hs).1⟩

theorem arithmetic_safe_copyLoops : Func.copyLoops.verify = .ok () ∧ Library.rational.Sound ∧
    Session.start.Honest Func.copyLoops ∧
    (tripCount Func.copyLoops Func.copyLoops.forest ⟨0⟩ .start).map (·.1) =
      some (some (.const 4)) ∧
    (answer Func.copyLoops Func.copyLoops.forest .rational ⟨4⟩ ⟨13⟩ true .start).map (·.1) =
      some (some (.atDistance ⟨4⟩ ⟨13⟩ .flow 0)) := by
  have hhonest : Session.start.Honest Func.copyLoops := .fresh rfl
  obtain ⟨hcount, hanswer⟩ :=
    arithmetic_safe Func.verify_copyLoops Library.sound_rational hhonest
  refine ⟨Func.verify_copyLoops, Library.sound_rational, hhonest, ?_, ?_⟩
  · rw [hcount]
    decide +kernel
  · rw [hanswer]
    decide +kernel

end Guarded

end LoopFusion
