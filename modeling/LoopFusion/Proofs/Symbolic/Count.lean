import Mathlib.Tactic.Linarith
import LoopFusion.Proofs.Symbolic.PolyValue
import LoopFusion.Symbolic.TripCount

/-!
What a trip count says of the values that the induction variable takes: the test holds for as many
of them as the count says, and fails for the next one. For numbers there is a count exactly if the
test fails at all and a word can hold the count.
-/

namespace LoopFusion

/-- Counting from `start` by `step`, the test holds `c` times and then fails. A test for inequality
holds forever when the bound lies in the other direction. -/
structure Counts (test : Comparison) (start bound step c : Int) : Prop where
  stays : ∀ j, 0 ≤ j → j < c → test.holds (start + step * j) bound
  leaves : 0 ≤ c → ¬ test.holds (start + step * c) bound
  early : c < 0 → test ≠ .ne → ¬ test.holds start bound
  forever : c < 0 → test = .ne → ∀ j, 0 ≤ j → test.holds (start + step * j) bound

namespace Counts

variable {test : Comparison} {start bound step c : Int} {n : Nat}

theorem of_nonneg (hc : 0 ≤ c) (hs : ∀ j, 0 ≤ j → j < c → test.holds (start + step * j) bound)
    (hl : ¬ test.holds (start + step * c) bound) : Counts test start bound step c :=
  ⟨hs, fun _ => hl, fun h => absurd hc (by omega), fun h => absurd hc (by omega)⟩

theorem lt (h : Counts test start bound step c) (hne : test = .ne → 0 ≤ c)
    (hn : ∀ j : Nat, j ≤ n → test.holds (start + step * j) bound) : (n : Int) < c := by
  by_contra hlt
  by_cases hc : 0 ≤ c
  · have := hn c.toNat (by omega)
    rw [Int.toNat_of_nonneg hc] at this
    exact h.leaves hc this
  · have h₀ := hn 0 (Nat.zero_le n)
    rw [Nat.cast_zero, mul_zero, add_zero] at h₀
    exact h.early (by omega) (fun he => hc (hne he)) h₀

theorem eq (h : Counts test start bound step c)
    (hn : ∀ j : Nat, j < n → test.holds (start + step * j) bound)
    (hf : ¬ test.holds (start + step * n) bound) :
    (n : Int) = max 0 c ∧ (test = .ne → 0 ≤ c) := by
  by_cases hc : 0 ≤ c
  · refine ⟨?_, fun _ => hc⟩
    rcases lt_trichotomy (n : Int) c with hlt | heq | hgt
    · exact absurd (h.stays n (by omega) hlt) hf
    · omega
    · have := hn c.toNat (by omega)
      rw [Int.toNat_of_nonneg hc] at this
      exact absurd this (h.leaves hc)
  · have hne : test ≠ .ne := fun he => hf (h.forever (by omega) he n (by omega))
    refine ⟨?_, fun he => absurd he hne⟩
    by_contra hn₀
    have h₀ := hn 0 (by omega)
    rw [Nat.cast_zero, mul_zero, add_zero] at h₀
    exact h.early (by omega) hne h₀

/-- Counting down to a bound is counting up to its negative. -/
theorem mirror {test' : Comparison} (hc : Counts test' (-start) (-bound) (-step) c)
    (hne : test = .ne ↔ test' = .ne) (h : ∀ x y, test.holds x y = test'.holds (-x) (-y)) :
    Counts test start bound step c := by
  have hj : ∀ j, test.holds (start + step * j) bound =
      test'.holds (-start + -step * j) (-bound) := by
    intro j
    rw [h, neg_add, neg_mul]
  refine ⟨fun j h₀ h₁ => ?_, fun h₀ => ?_, fun h₀ hn => ?_, fun h₀ hn j h₁ => ?_⟩
  · rw [hj]
    exact hc.stays j h₀ h₁
  · rw [hj]
    exact hc.leaves h₀
  · rw [h]
    exact hc.early h₀ (mt hne.2 hn)
  · rw [hj]
    exact hc.forever h₀ (hne.1 hn) j h₁

theorem slt (hs : 0 < step) (h : start < bound) :
    Counts .slt start bound step ((bound - start + step - 1) / step) := by
  have h₁ := Int.mul_ediv_self_le (x := bound - start + step - 1) hs.ne'
  have h₂ := Int.lt_mul_ediv_self_add (x := bound - start + step - 1) hs
  have hc : 0 ≤ (bound - start + step - 1) / step := Int.ediv_nonneg (by omega) hs.le
  generalize (bound - start + step - 1) / step = q at *
  refine of_nonneg hc (fun j _ hj => ?_) ?_
  · have := mul_le_mul_of_nonneg_left (show j ≤ q - 1 by omega) hs.le
    rw [mul_sub, mul_one] at this
    simp only [Comparison.holds, decide_eq_true_eq]
    omega
  · simp only [Comparison.holds, decide_eq_true_eq]
    omega

theorem sle (hs : 0 < step) (h : start ≤ bound) :
    Counts .sle start bound step ((bound - start) / step + 1) := by
  have h₁ := Int.mul_ediv_self_le (x := bound - start) hs.ne'
  have h₂ := Int.lt_mul_ediv_self_add (x := bound - start) hs
  have hc : 0 ≤ (bound - start) / step := Int.ediv_nonneg (by omega) hs.le
  generalize (bound - start) / step = q at *
  refine of_nonneg (by omega) (fun j _ hj => ?_) ?_
  · have := mul_le_mul_of_nonneg_left (show j ≤ q by omega) hs.le
    simp only [Comparison.holds, decide_eq_true_eq]
    omega
  · simp only [Comparison.holds, decide_eq_true_eq, mul_add, mul_one]
    omega

theorem ne (hs : step ≠ 0) (hd : (bound - start) % step = 0) (hq : 0 < (bound - start) / step) :
    Counts .ne start bound step ((bound - start) / step) := by
  have hmul := Int.mul_ediv_cancel_of_dvd (Int.dvd_of_emod_eq_zero hd)
  refine of_nonneg hq.le (fun j _ hj => ?_) ?_
  · simp only [Comparison.holds, decide_eq_true_eq]
    intro he
    have : step * j = step * ((bound - start) / step) := by omega
    exact hj.ne (mul_left_cancel₀ hs this)
  · simp only [Comparison.holds, decide_eq_true_eq]
    omega

theorem sgt (hs : step < 0) (h : bound < start) :
    Counts .sgt start bound step ((start - bound + -step - 1) / -step) := by
  have hup : Counts .slt (-start) (-bound) (-step) ((-bound - -start + -step - 1) / -step) :=
    slt (by omega) (by omega)
  rw [show -bound - -start + -step - 1 = start - bound + -step - 1 by ring] at hup
  exact hup.mirror (by decide) fun x y => by simp [Comparison.holds]

theorem sge (hs : step < 0) (h : bound ≤ start) :
    Counts .sge start bound step ((start - bound) / -step + 1) := by
  have hup : Counts .sle (-start) (-bound) (-step) ((-bound - -start) / -step + 1) :=
    sle (by omega) (by omega)
  rw [show -bound - -start = start - bound by ring] at hup
  exact hup.mirror (by decide) fun x y => by simp [Comparison.holds]

theorem nonneg (h : Counts test start bound step c) (hne : test ≠ .ne)
    (hf : test.holds start bound) : 0 ≤ c := by
  by_contra hc
  exact h.early (by omega) hne hf

/-- The test never fails. -/
def Unending (test : Comparison) (start bound step : Int) : Prop :=
  ∀ j, 0 ≤ j → test.holds (start + step * j) bound

/-- The answer is a count, if the test fails at all. -/
def Settled (test : Comparison) (start bound step : Int) (answer : Option Int) : Prop :=
  (∃ c, 0 ≤ c ∧ Counts test start bound step c ∧ answer = checked c) ∨
    Unending test start bound step ∧ answer = none

theorem settled_ite {P : Prop} [Decidable P]
    (hpos : P → 0 ≤ c ∧ Counts test start bound step c)
    (hneg : ¬ P → Unending test start bound step) :
    Settled test start bound step (if P then checked c else none) := by
  split
  case isTrue h => exact .inl ⟨c, (hpos h).1, (hpos h).2, rfl⟩
  case isFalse h => exact .inr ⟨hneg h, rfl⟩

theorem unending_of_down (hs : step ≤ 0) :
    (start < bound → Unending .slt start bound step) ∧
      (start ≤ bound → Unending .sle start bound step) := by
  constructor <;> intro h j hj <;> have := mul_nonpos_of_nonpos_of_nonneg hs hj <;>
    simp only [Comparison.holds, decide_eq_true_eq] <;> omega

theorem unending_of_up (hs : 0 ≤ step) :
    (bound < start → Unending .sgt start bound step) ∧
      (bound ≤ start → Unending .sge start bound step) := by
  constructor <;> intro h j hj <;> have := mul_nonneg hs hj <;>
    simp only [Comparison.holds, decide_eq_true_eq] <;> omega

theorem unending_of_missed (hstep : step ≠ 0) (h : start ≠ bound)
    (hmiss : ¬ ((bound - start) % step = 0 ∧ 0 < (bound - start) / step)) :
    Unending .ne start bound step := by
  intro j hj
  simp only [Comparison.holds, decide_eq_true_eq]
  intro hmeet
  obtain rfl := hmeet.symm
  rw [add_sub_cancel_left, Int.mul_emod_right, Int.mul_ediv_cancel_left _ hstep] at hmiss
  have hj₀ : j ≠ 0 := by
    rintro rfl
    rw [mul_zero, add_zero] at h
    exact h rfl
  omega

theorem settled_stepsWhile? (test : Comparison) (start bound : Int) (hstep : step ≠ 0) :
    Settled test start bound step (stepsWhile? test start bound step) := by
  unfold LoopFusion.stepsWhile?
  split
  case isTrue hf =>
    refine .inl ⟨0, le_rfl, of_nonneg le_rfl (fun j h₀ h₁ => by omega) ?_, rfl⟩
    rw [mul_zero, add_zero]
    simpa using hf
  case isFalse hf =>
    have hf : test.holds start bound := by simpa using hf
    have hcounted : ∀ {c}, test ≠ .ne → Counts test start bound step c →
        0 ≤ c ∧ Counts test start bound step c := fun hne h => ⟨h.nonneg hne hf, h⟩
    cases test with
    | slt =>
      have h : start < bound := by simpa [Comparison.holds] using hf
      exact settled_ite (fun hs => hcounted (by decide) (slt hs h)) fun hs =>
        (unending_of_down (not_lt.1 hs)).1 h
    | sle =>
      have h : start ≤ bound := by simpa [Comparison.holds] using hf
      exact settled_ite (fun hs => hcounted (by decide) (sle hs h)) fun hs =>
        (unending_of_down (not_lt.1 hs)).2 h
    | sgt =>
      have h : bound < start := by simpa [Comparison.holds] using hf
      exact settled_ite (fun hs => hcounted (by decide) (sgt hs h)) fun hs =>
        (unending_of_up (not_lt.1 hs)).1 h
    | sge =>
      have h : bound ≤ start := by simpa [Comparison.holds] using hf
      exact settled_ite (fun hs => hcounted (by decide) (sge hs h)) fun hs =>
        (unending_of_up (not_lt.1 hs)).2 h
    | ne =>
      have h : start ≠ bound := by simpa [Comparison.holds] using hf
      refine settled_ite (fun hq => ?_) fun hq => unending_of_missed hstep h (by simpa using hq)
      rw [Bool.and_eq_true, decide_eq_true_eq, decide_eq_true_eq] at hq
      exact ⟨hq.2.le, ne hstep hq.1 hq.2⟩
    | eq =>
      have h : start = bound := by simpa [Comparison.holds] using hf
      refine .inl ⟨1, by decide, of_nonneg (by decide) (fun j _ hj => ?_) ?_, rfl⟩
      · obtain rfl : j = 0 := by omega
        simpa [Comparison.holds] using h
      · simpa [Comparison.holds, h] using hstep

theorem of_stepsWhile? (hstep : step ≠ 0) (h : stepsWhile? test start bound step = some c) :
    Counts test start bound step c := by
  obtain ⟨d, -, hcounts, hd⟩ | ⟨-, hnone⟩ := settled_stepsWhile? test start bound hstep
  · rw [hd] at h
    exact (checked_eq_some_iff.1 h).2 ▸ hcounts
  · rw [hnone] at h
    cases h

theorem nonneg_of_stepsWhile? (hstep : step ≠ 0) (h : stepsWhile? test start bound step = some c) :
    0 ≤ c ∧ Fits c := by
  obtain ⟨d, hd, -, heq⟩ | ⟨-, hnone⟩ := settled_stepsWhile? test start bound hstep
  · rw [heq] at h
    obtain ⟨hfits, rfl⟩ := checked_eq_some_iff.1 h
    exact ⟨hd, hfits⟩
  · rw [hnone] at h
    cases h

/-- The numbers of steps after which the test fails. -/
def failing (test : Comparison) (start bound step : Int) : Set Int :=
  {k | 0 ≤ k ∧ ¬ test.holds (start + step * k) bound}

theorem isLeast_failing (h : Counts test start bound step c) (hc : 0 ≤ c) :
    IsLeast (failing test start bound step) c := by
  constructor
  · exact ⟨hc, h.leaves hc⟩
  · rintro k ⟨hk, hfails⟩
    by_contra hlt
    exact hfails (h.stays k hk (not_le.1 hlt))

theorem failing_eq_empty (h : Unending test start bound step) :
    failing test start bound step = ∅ := by
  apply Set.eq_empty_of_forall_notMem
  rintro k ⟨hk, hfails⟩
  exact hfails (h k hk)

/-- The count is the least number of steps after which the test fails, if there is one and a word
can hold it. -/
theorem steps_exact (test : Comparison) (start bound : Int) {step : Int} (hstep : step ≠ 0) :
    (∀ c, stepsWhile? test start bound step = some c ↔
      IsLeast (failing test start bound step) c ∧ c ≤ 2 ^ 63 - 1) ∧
    (stepsWhile? test start bound step = none ↔ failing test start bound step = ∅ ∨
      ∃ c, IsLeast (failing test start bound step) c ∧ 2 ^ 63 - 1 < c) := by
  obtain ⟨c, hc, hcounts, heq⟩ | ⟨hnever, heq⟩ := settled_stepsWhile? test start bound hstep
  · have hleast := hcounts.isLeast_failing hc
    have hfits : Fits c ↔ c ≤ 2 ^ 63 - 1 := by
      rw [Fits]
      omega
    rw [heq]
    constructor
    · intro d
      rw [checked_eq_some_iff, hfits]
      constructor
      · rintro ⟨hle, rfl⟩
        exact ⟨hleast, hle⟩
      · rintro ⟨hd, hle⟩
        obtain rfl := hleast.unique hd
        exact ⟨hle, rfl⟩
    · rw [← Option.not_isSome_iff_eq_none, Option.isSome_iff_exists]
      simp only [checked_eq_some_iff, hfits, exists_eq_right', not_le]
      constructor
      · intro hlt
        exact .inr ⟨c, hleast, hlt⟩
      · rintro (hempty | ⟨d, hd, hlt⟩)
        · exact absurd (hempty ▸ hleast.1) (Set.notMem_empty c)
        · rwa [hleast.unique hd]
  · have hempty := failing_eq_empty hnever
    rw [heq, hempty]
    exact ⟨fun c => ⟨nofun, fun h => absurd h.1.1 (Set.notMem_empty c)⟩, fun _ => .inl rfl,
      fun _ => rfl⟩

/-- From 7 down to 0 by twos there are four steps. From the least word to the greatest there are more
than a word can hold. -/
theorem steps_exact_extremes : IsLeast (failing .sge 7 0 (-2)) 4 ∧
    ∃ c, IsLeast (failing .slt (-2 ^ 63) (2 ^ 63 - 1) 1) c ∧ 2 ^ 63 - 1 < c := by
  constructor
  · exact (((steps_exact .sge 7 0 (by decide)).1 4).1 (by decide)).1
  · have hnone : stepsWhile? .slt (-2 ^ 63) (2 ^ 63 - 1) 1 = none := by decide
    obtain hempty | h := (steps_exact .slt (-2 ^ 63) (2 ^ 63 - 1) (by decide)).2.1 hnone
    · have hmem : (2 ^ 64 - 1 : Int) ∈ failing .slt (-2 ^ 63) (2 ^ 63 - 1) 1 :=
        ⟨by decide, by decide⟩
      exact absurd (hempty ▸ hmem) (Set.notMem_empty _)
    · exact h

theorem up (h : bound - start = c) : Counts .slt start bound 1 c ∧ Counts .ne start bound 1 c := by
  refine ⟨⟨?_, ?_, ?_, ?_⟩, ⟨?_, ?_, ?_, ?_⟩⟩ <;> intros <;>
    simp_all only [Comparison.holds, decide_eq_true_eq, one_mul, reduceCtorEq, ne_eq,
      not_true_eq_false] <;> omega

theorem up_to (h : bound - start + 1 = c) : Counts .sle start bound 1 c := by
  refine ⟨?_, ?_, ?_, ?_⟩ <;> intros <;>
    simp_all only [Comparison.holds, decide_eq_true_eq, one_mul, reduceCtorEq] <;> omega

theorem of_tripCount? {ρ : Symbol → Int} {s b p : Poly} (hstep : step ≠ 0)
    (h : tripCount? test s b step = some p) :
    Counts test (s.eval ρ) (b.eval ρ) step (p.eval ρ) := by
  rw [tripCount?] at h
  split at h
  case h_1 x y hx hy =>
    obtain ⟨c, hc, rfl⟩ := Option.map_eq_some_iff.1 h
    rw [Poly.eval_of_const? hx, Poly.eval_of_const? hy, Poly.eval_const]
    exact of_stepsWhile? hstep hc
  case h_2 =>
    obtain ⟨up, hup, h⟩ := Option.bind_eq_some_iff.1 h
    obtain ⟨down, hdown, h⟩ := Option.bind_eq_some_iff.1 h
    have hu := Poly.eval_sub (ρ := ρ) hup
    have hd := Poly.eval_sub (ρ := ρ) hdown
    have hadd : ∀ q : Poly, q.add? (.const 1) = some p → p.eval ρ = q.eval ρ + 1 := fun q hq => by
      rw [Poly.eval_add hq, Poly.eval_const]
    split at h
    · obtain rfl := Option.some.inj h
      exact (Counts.up hu.symm).1
    · obtain rfl := Option.some.inj h
      exact (Counts.up hu.symm).2
    · exact up_to (by rw [hadd _ h, hu])
    · obtain rfl := Option.some.inj h
      exact (Counts.up (by omega)).1.mirror (by decide) fun x y => by simp [Comparison.holds]
    · obtain rfl := Option.some.inj h
      exact (Counts.up (by omega)).2.mirror (by decide) fun x y => by simp [Comparison.holds]
    · exact (up_to (by rw [hadd _ h]; omega)).mirror (by decide) fun x y => by simp [Comparison.holds]
    · cases h

end Counts

end LoopFusion
