import Mathlib.Data.Rat.Lemmas
import LoopFusion.Proofs.Guarded.Tables
import LoopFusion.Proofs.Memory.Conflict
import LoopFusion.Proofs.Symbolic.Count

/-!
Trip counts and the tests on equations, computed in words of 64 and of 128 bits. A result that does
not fit leaves no answer, and neither does a division by zero. Whenever what goes in fits a word, and
the step is not zero, there is an answer, and it is the one without bounds.
-/

namespace LoopFusion.Guarded

/-- The values of a signed 128-bit word. -/
def FitsDouble (x : Int) : Prop :=
  -170141183460469231731687303715884105728 ≤ x ∧ x < 170141183460469231731687303715884105728

instance (x : Int) : Decidable (FitsDouble x) := inferInstanceAs (Decidable (_ ∧ _))

def double (x : Int) : Option Int := if FitsDouble x then some x else none

/-- Division rounds towards zero. The least number divided by `-1` does not fit. -/
def quotient (x y : Int) : Option Int := if y = 0 then none else double (x.tdiv y)

example : quotient (-2 ^ 127) (-1) = none := by decide

/-- There is a remainder where there is a quotient. -/
def remainder (x y : Int) : Option Int := (quotient x y).map fun _ => x.tmod y

/-- The number and its negative fit. -/
def Proper (x : Int) : Prop := FitsDouble x ∧ FitsDouble (-x)

instance (x : Int) : Decidable (Proper x) := inferInstanceAs (Decidable (_ ∧ _))

variable {x y a b c start bound step low high size : Int} {test : Comparison}

theorem double_eq (h : FitsDouble x) : double x = some x := if_pos h

theorem proper_of_fits (h : Fits x) : Proper x := by
  simp only [Proper, FitsDouble, Fits] at *
  omega

theorem quotient_eq (hx : Proper x) (hy : y ≠ 0) : quotient x y = some (x.tdiv y) := by
  rw [quotient, if_neg hy]
  apply double_eq
  have hle := Int.natAbs_tdiv_le_natAbs x y
  simp only [Proper, FitsDouble] at *
  omega

theorem remainder_eq (hx : Proper x) (hy : y ≠ 0) : remainder x y = some (x.tmod y) := by
  rw [remainder, quotient_eq hx hy, Option.map_some]

/-! Trip counts. -/

/-- How many steps lead from `low` to `high` or past it. -/
def stepsTo (low high size : Int) : Option (Option Int) := do
  let distance ← double (high - low)
  let sum ← double (distance + size)
  return checked (← quotient (← double (sum - 1)) size)

/-- How many steps lead from `low` past `high`. -/
def stepsPast (low high size : Int) : Option (Option Int) := do
  let distance ← double (high - low)
  return checked (← double ((← quotient distance size) + 1))

def stepsWhile? (test : Comparison) (start bound step : Int) : Option (Option Int) :=
  if !test.holds start bound then some (some 0)
  else
    match test with
    | .slt => if 0 < step then stepsTo start bound step else some none
    | .sle => if 0 < step then stepsPast start bound step else some none
    | .sgt => if step < 0 then do stepsTo bound start (← double (-step)) else some none
    | .sge => if step < 0 then do stepsPast bound start (← double (-step)) else some none
    | .ne => do
      let distance ← double (bound - start)
      if (← remainder distance step) = 0 then
        let count ← quotient distance step
        return if 0 < count then checked count else none
      else return none
    | .eq => some (some 1)

theorem double_sub (hx : Fits x) (hy : Fits y) : double (x - y) = some (x - y) := by
  apply double_eq
  simp only [FitsDouble, Fits] at *
  omega

theorem proper_sub (hx : Fits x) (hy : Fits y) : Proper (x - y) := by
  simp only [Proper, FitsDouble, Fits] at *
  omega

theorem stepsTo_eq (hlow : Fits low) (hhigh : Fits high) (hle : low ≤ high) (hsize : 0 < size)
    (hsize' : size ≤ 2 ^ 63) :
    stepsTo low high size = some (checked ((high - low + size - 1) / size)) := by
  have hdistance := double_sub hhigh hlow
  simp only [Fits] at hlow hhigh
  have hsum : double (high - low + size) = some (high - low + size) :=
    double_eq (by rw [FitsDouble]; omega)
  have hpred : double (high - low + size - 1) = some (high - low + size - 1) :=
    double_eq (by rw [FitsDouble]; omega)
  have hproper : Proper (high - low + size - 1) := by
    simp only [Proper, FitsDouble]
    omega
  have hdiv := Int.tdiv_eq_ediv_of_nonneg (a := high - low + size - 1) (b := size) (by omega)
  simp only [stepsTo, hdistance, hsum, hpred, quotient_eq hproper hsize.ne', hdiv,
    Option.bind_eq_bind, Option.bind_some, Option.pure_def]

theorem stepsPast_eq (hlow : Fits low) (hhigh : Fits high) (hle : low ≤ high) (hsize : 0 < size) :
    stepsPast low high size = some (checked ((high - low) / size + 1)) := by
  have hdistance := double_sub hhigh hlow
  have hproper := proper_sub hhigh hlow
  have hdiv := Int.tdiv_eq_ediv_of_nonneg (a := high - low) (b := size) (by omega)
  have hcount : double ((high - low) / size + 1) = some ((high - low) / size + 1) := by
    have hbelow := Int.ediv_le_self size (show 0 ≤ high - low by omega)
    have habove := Int.ediv_nonneg (show 0 ≤ high - low by omega) hsize.le
    apply double_eq
    simp only [FitsDouble, Fits] at *
    omega
  simp only [stepsPast, hdistance, quotient_eq hproper hsize.ne', hdiv, hcount,
    Option.bind_eq_bind, Option.bind_some, Option.pure_def]

theorem stepsWhile?_eq (hs : Fits start) (hb : Fits bound) (hstep : Fits step) (hne : step ≠ 0) :
    stepsWhile? test start bound step = some (LoopFusion.stepsWhile? test start bound step) := by
  unfold stepsWhile? LoopFusion.stepsWhile?
  split
  case isTrue => rfl
  case isFalse hf =>
    have hf : test.holds start bound := by simpa using hf
    have hsize := double_eq (proper_of_fits hstep).2
    have hstep : -step ≤ 2 ^ 63 ∧ step ≤ 2 ^ 63 := by
      rw [Fits] at hstep
      omega
    cases test with
    | slt =>
      have h : start < bound := by simpa [Comparison.holds] using hf
      dsimp only
      split
      case isTrue hpos => exact stepsTo_eq hs hb h.le hpos hstep.2
      case isFalse => rfl
    | sle =>
      have h : start ≤ bound := by simpa [Comparison.holds] using hf
      dsimp only
      split
      case isTrue hpos => exact stepsPast_eq hs hb h hpos
      case isFalse => rfl
    | sgt =>
      have h : bound < start := by simpa [Comparison.holds] using hf
      dsimp only
      split
      case isTrue hneg =>
        rw [hsize]
        exact stepsTo_eq hb hs h.le (by omega) hstep.1
      case isFalse => rfl
    | sge =>
      have h : bound ≤ start := by simpa [Comparison.holds] using hf
      dsimp only
      split
      case isTrue hneg =>
        rw [hsize]
        exact stepsPast_eq hb hs h (by omega)
      case isFalse => rfl
    | ne =>
      have hproper := proper_sub hb hs
      simp only [double_sub hb hs, remainder_eq hproper hne, quotient_eq hproper hne,
        Option.bind_eq_bind, Option.bind_some, Option.pure_def, ← Int.dvd_iff_tmod_eq_zero,
        ← Int.dvd_iff_emod_eq_zero]
      by_cases hdvd : step ∣ bound - start
      · simp only [hdvd, if_true, Int.tdiv_eq_ediv_of_dvd hdvd, decide_true, Bool.true_and,
          decide_eq_true_eq]
      · simp only [hdvd, if_false, decide_false, Bool.false_and, Bool.false_eq_true]
    | eq => rfl

-- a step of zero is divided by
example : stepsWhile? .ne 0 1 0 = none := by decide

/-! The tests on equations. -/

/-- Greatest common divisors and fractions in lowest terms, in words of 128 bits. -/
structure Library where
  gcd : Int → Int → Int
  /-- Numerator and denominator. -/
  fraction : Int → Int → Int × Int

namespace Library

/-- The least number has no greatest common divisor with itself. -/
def gcd? (lib : Library) (x y : Int) : Option Int :=
  if Proper x ∧ Proper y then some (lib.gcd x y) else none

/-- There is no fraction with denominator zero. -/
def fraction? (lib : Library) (x y : Int) : Option (Int × Int) :=
  if Proper x ∧ Proper y ∧ y ≠ 0 then some (lib.fraction x y) else none

structure Sound (lib : Library) : Prop where
  gcd : ∀ x y, Proper x → Proper y → lib.gcd x y = Int.gcd x y
  positive : ∀ x y, Proper x → Proper y → y ≠ 0 → 0 < (lib.fraction x y).2
  lowest : ∀ x y, Proper x → Proper y → y ≠ 0 →
    Int.gcd (lib.fraction x y).1 (lib.fraction x y).2 = 1
  equal : ∀ x y, Proper x → Proper y → y ≠ 0 →
    (lib.fraction x y).1 * y = x * (lib.fraction x y).2

/-- Fractions as rational numbers. -/
def rational : Library where
  gcd x y := Int.gcd x y
  fraction x y := ((Rat.divInt x y).num, (Rat.divInt x y).den)

theorem sound_rational : rational.Sound where
  gcd _ _ _ _ := rfl
  positive x y _ _ _ := Int.natCast_pos.2 (Rat.divInt x y).den_pos
  lowest x y _ _ _ := (Rat.divInt x y).reduced
  equal x y _ _ hne := by
    have hden : ((Rat.divInt x y).den : Int) ≠ 0 := Int.natCast_ne_zero.2 (Rat.divInt x y).den_nz
    apply (Rat.divInt_eq_divInt_iff hden hne).1
    exact Rat.num_divInt_den _

end Library

variable {lib : Library}

theorem Library.Sound.fraction_whole (h : lib.Sound) (hx : Proper x) (hy : Proper y) (hne : y ≠ 0) :
    ((lib.fraction x y).2 = 1 ↔ y ∣ x) ∧
      ((lib.fraction x y).2 = 1 → (lib.fraction x y).1 = x / y) := by
  have hpos := h.positive x y hx hy hne
  have hlowest := h.lowest x y hx hy hne
  have heq := h.equal x y hx hy hne
  generalize lib.fraction x y = q at hpos hlowest heq ⊢
  obtain ⟨numer, denom⟩ := q
  dsimp only at *
  have hwhole : denom = 1 → numer * y = x := by
    rintro rfl
    rwa [mul_one] at heq
  refine ⟨⟨fun hone => Dvd.intro_left _ (hwhole hone), ?_⟩, fun hone => ?_⟩
  · rintro ⟨k, rfl⟩
    have hnumer : numer = k * denom := by
      apply mul_right_cancel₀ hne
      rw [heq]
      ring
    rw [hnumer, Int.gcd_mul_left_left, Int.natAbs_eq_iff] at hlowest
    omega
  · rw [← hwhole hone, Int.mul_ediv_cancel _ hne]

def gcdTest (lib : Library) (coeffs : List Int) (constant : Int) : Option Bool := do
  let g ← coeffs.foldlM lib.gcd? 0
  if g = 0 then return constant = 0 else return (← remainder constant g) = 0

theorem gcd?_eq (hlib : lib.Sound) (hx : 0 ≤ x ∧ x ≤ 2 ^ 63) (hy : Fits y) :
    lib.gcd? x y = some (Int.gcd x y : Int) ∧ (Int.gcd x y : Int) ≤ 2 ^ 63 := by
  have hproper : Proper x := by
    simp only [Proper, FitsDouble]
    omega
  constructor
  · rw [Library.gcd?, if_pos ⟨hproper, proper_of_fits hy⟩, hlib.gcd x y hproper (proper_of_fits hy)]
  · by_cases hzero : y = 0
    · rw [hzero, Int.gcd_zero_right]
      omega
    · have hle := Int.gcd_le_natAbs_right x hzero
      rw [Fits] at hy
      omega

theorem gcdAll_eq (hlib : lib.Sound) {coeffs : List Int} (h : ∀ x ∈ coeffs, Fits x) :
    coeffs.foldlM lib.gcd? 0 = some (Diophantine.gcdAll coeffs : Int) := by
  have hcast : coeffs.foldl (fun g x => (Int.gcd g x : Int)) 0 = Diophantine.gcdAll coeffs :=
    List.foldl_hom Nat.cast fun _ _ => rfl
  rw [← hcast]
  apply foldlM_eq_some (fun g => 0 ≤ g ∧ g ≤ 2 ^ 63)
  · intro g hg x hx
    obtain ⟨heq, hle⟩ := gcd?_eq hlib hg (h x hx)
    exact ⟨heq, Int.natCast_nonneg _, hle⟩
  · decide

theorem gcdTest_eq (hlib : lib.Sound) {coeffs : List Int} (h : ∀ x ∈ coeffs, Fits x)
    (hc : Fits c) : gcdTest lib coeffs c = some (Diophantine.gcdTest coeffs c) := by
  simp only [gcdTest, gcdAll_eq hlib h, Option.bind_eq_bind, Option.bind_some, Option.pure_def,
    Diophantine.gcdTest, Int.natCast_eq_zero]
  split
  case isTrue => rfl
  case isFalse hne =>
    have hne : (Diophantine.gcdAll coeffs : Int) ≠ 0 := by exact_mod_cast hne
    simp only [remainder_eq (proper_of_fits hc) hne, Option.bind_some,
      ← Int.dvd_iff_tmod_eq_zero, ← Int.dvd_iff_emod_eq_zero]

/-- The test on the gcd decides whether there is a solution, and words of 128 bits are enough for
it. -/
theorem gcdTest_decides (coeffs : List Int) (c : Int) :
    (Diophantine.gcdTest coeffs c ↔ Diophantine.Solvable coeffs c) ∧
    ∀ lib : Library, lib.Sound → (∀ x ∈ coeffs, Fits x) → Fits c →
      gcdTest lib coeffs c = some (Diophantine.gcdTest coeffs c) :=
  ⟨Diophantine.gcdTest_iff_dvd.trans Diophantine.gcdAll_dvd_iff,
    fun _ hlib h hc => gcdTest_eq hlib h hc⟩

theorem gcdTest_decides_least : Fits (-2 ^ 63) ∧
    ¬ Diophantine.Solvable [-2 ^ 63, 0, -2 ^ 63] 1 ∧ Diophantine.Solvable [-2 ^ 63, 2] 4 ∧
    gcdTest .rational [-2 ^ 63, 0, -2 ^ 63] 1 = some false := by
  refine ⟨by decide, ?_, ?_, ?_⟩
  · rw [← (gcdTest_decides _ _).1]
    decide
  · rw [← (gcdTest_decides _ _).1]
    decide
  · rw [(gcdTest_decides _ _).2 _ Library.sound_rational (by decide) (by decide)]
    decide

/-- A sum of products that grows by one. -/
def addProduct (sum coeff x : Int) : Option Int := do double (sum + (← double (coeff * x)))

def banerjeeTest (coeffs : List Int) (constant : Int) (lower upper : List Int) : Option Bool :=
  go constant constant coeffs lower upper
where
  go (least greatest : Int) : List Int → List Int → List Int → Option Bool
    | [], _, _ => some (least ≤ 0 && 0 ≤ greatest)
    | c :: cs, l :: ls, u :: us =>
      if 0 < c then do
        go (← addProduct least c l) (← addProduct greatest c u) cs ls us
      else do
        go (← addProduct least c u) (← addProduct greatest c l) cs ls us
    | _ :: _, _, _ => some true

/-- The sum fits, and so it does with `n` more products of a word and a word that is not negative. -/
def Room (n : Nat) (x : Int) : Prop :=
  n * 85070591730234615856620279821087277056 - 170141183460469231731687303715884105728 < x ∧
    x < 170141183460469231731687303715884105728 - n * 85070591730234615856620279821087277056

theorem product_bounds (hx : Fits x) (hy : 0 ≤ y) (hy' : Fits y) :
    -85070591730234615856620279821087277056 ≤ x * y ∧
      x * y ≤ 85070591730234615856620279821087277056 := by
  rw [Fits] at hx hy'
  have hlow := mul_le_mul_of_nonneg_right hx.1 hy
  have hhigh := mul_le_mul_of_nonneg_right hx.2.le hy
  omega

theorem addProduct_eq {n : Nat} {sum : Int} (hsum : Room (n + 1) sum) (hx : Fits x) (hy : 0 ≤ y)
    (hy' : Fits y) : addProduct sum x y = some (sum + x * y) ∧ Room n (sum + x * y) := by
  obtain ⟨hlow, hhigh⟩ := product_bounds hx hy hy'
  rw [Room] at hsum
  push_cast at hsum
  have hproduct : double (x * y) = some (x * y) := double_eq (by rw [FitsDouble]; omega)
  have hroom : Room n (sum + x * y) := by
    rw [Room]
    omega
  refine ⟨?_, hroom⟩
  rw [Room] at hroom
  simp only [addProduct, hproduct, Option.bind_eq_bind, Option.bind_some]
  exact double_eq (by rw [FitsDouble]; omega)

/-- The bounds of a variable are words that are not negative. -/
def Bounds (l : List Int) : Prop := ∀ x ∈ l, 0 ≤ x ∧ Fits x

theorem banerjeeTest_go_cons {t : Diophantine.Term} {least greatest : Int} {n : Nat}
    (coeffs lower upper : List Int) (hcoeff : Fits t.coeff) (hlower : 0 ≤ t.lower ∧ Fits t.lower)
    (hupper : 0 ≤ t.upper ∧ Fits t.upper) (hleast : Room (n + 1) least)
    (hgreatest : Room (n + 1) greatest) :
    banerjeeTest.go least greatest (t.coeff :: coeffs) (t.lower :: lower) (t.upper :: upper) =
        banerjeeTest.go (least + t.min) (greatest + t.max) coeffs lower upper ∧
      Room n (least + t.min) ∧ Room n (greatest + t.max) := by
  rw [banerjeeTest.go, Diophantine.Term.min, Diophantine.Term.max]
  split
  case isTrue =>
    obtain ⟨hmin, hleast⟩ := addProduct_eq hleast hcoeff hlower.1 hlower.2
    obtain ⟨hmax, hgreatest⟩ := addProduct_eq hgreatest hcoeff hupper.1 hupper.2
    simp only [hmin, hmax, Option.bind_eq_bind, Option.bind_some]
    exact ⟨trivial, hleast, hgreatest⟩
  case isFalse =>
    obtain ⟨hmin, hleast⟩ := addProduct_eq hleast hcoeff hupper.1 hupper.2
    obtain ⟨hmax, hgreatest⟩ := addProduct_eq hgreatest hcoeff hlower.1 hlower.2
    simp only [hmin, hmax, Option.bind_eq_bind, Option.bind_some]
    exact ⟨trivial, hleast, hgreatest⟩

theorem banerjeeTest_go_eq {coeffs lower upper : List Int} {least greatest : Int}
    (hcoeffs : ∀ x ∈ coeffs, Fits x) (hlower : Bounds lower) (hupper : Bounds upper)
    (hleast : Room coeffs.length least) (hgreatest : Room coeffs.length greatest) :
    banerjeeTest.go least greatest coeffs lower upper =
      some (match Diophantine.terms? coeffs lower upper with
        | some ts => (ts.foldl (fun s t => s + t.min) least ≤ 0) &&
          (0 ≤ ts.foldl (fun s t => s + t.max) greatest)
        | none => true) := by
  induction coeffs generalizing lower upper least greatest with
  | nil => rfl
  | cons x coeffs ih =>
    cases lower with
    | nil => rfl
    | cons l lower =>
      cases upper with
      | nil => rfl
      | cons u upper =>
        obtain ⟨hx, hcoeffs⟩ := List.forall_mem_cons.1 hcoeffs
        obtain ⟨hl, hlower⟩ := List.forall_mem_cons.1 hlower
        obtain ⟨hu, hupper⟩ := List.forall_mem_cons.1 hupper
        obtain ⟨hgo, hleast, hgreatest⟩ := banerjeeTest_go_cons (t := ⟨x, l, u⟩) coeffs lower
          upper hx hl hu hleast hgreatest
        have hterms : Diophantine.terms? (x :: coeffs) (l :: lower) (u :: upper) =
          (Diophantine.terms? coeffs lower upper).map (⟨x, l, u⟩ :: ·) := rfl
        rw [hgo, ih hcoeffs hlower hupper hleast hgreatest, hterms]
        cases Diophantine.terms? coeffs lower upper <;> rfl

theorem banerjeeTest_eq (ha : Fits a) (hb : Fits b) (hc : Fits c) {lower upper : List Int}
    (hlower : Bounds lower) (hupper : Bounds upper) : banerjeeTest [a, b] c lower upper =
      some (Diophantine.banerjeeTest [a, b] c lower upper) := by
  have hcoeffs : ∀ x ∈ [a, b], Fits x := by
    simp only [List.forall_mem_cons]
    exact ⟨ha, hb, List.forall_mem_nil _⟩
  have hroom : Room [a, b].length c := by
    rw [Fits] at hc
    simp only [Room, List.length_cons, List.length_nil]
    omega
  rw [banerjeeTest, banerjeeTest_go_eq hcoeffs hlower hupper hroom hroom,
    Diophantine.banerjeeTest]
  rfl

/-- The distance, if the fraction is a whole number. -/
def ofFraction (lib : Library) (x y : Int) : Option Conflict := do
  let (numer, denom) ← lib.fraction? x y
  if denom ≠ 1 then return .never else return (checked numer).elim .possible .always

theorem ofFraction_eq (hlib : lib.Sound) (hx : Proper x) (hy : Proper y) (hne : y ≠ 0) :
    ofFraction lib x y =
      some (if x % y ≠ 0 then .never else (checked (x / y)).elim .possible .always) := by
  obtain ⟨hwhole, hnumer⟩ := hlib.fraction_whole hx hy hne
  rw [ofFraction, Library.fraction?, if_pos ⟨hx, hy, hne⟩, Option.bind_eq_bind, Option.bind_some]
  by_cases hone : (lib.fraction x y).2 = 1
  · have hdvd := Int.emod_eq_zero_of_dvd (hwhole.1 hone)
    simp only [hone, hdvd, hnumer hone, ne_eq, not_true_eq_false, if_false, Option.pure_def]
  · have hdvd := mt Int.dvd_of_emod_eq_zero (mt hwhole.2 hone)
    simp only [hone, hdvd, ne_eq, not_false_eq_true, if_true, Option.pure_def]

def outOfRange (a negB negC : Int) (srcMax? dstMax? : Option Int) : Option Bool :=
  match srcMax?, dstMax? with
  | some ns, some nd =>
    if ns < 0 || nd < 0 then some true
    else do return !(← banerjeeTest [a, negB] negC [0, 0] [ns, nd])
  | _, _ => some false

def ofEquation (lib : Library) (a b c : Int) (srcMax? dstMax? : Option Int) : Option Conflict :=
  match checked (-b), checked (-c) with
  | some negB, some negC => do
    if !(← gcdTest lib [a, negB] c) then return .never
    else if ← outOfRange a negB negC srcMax? dstMax? then return .never
    else if a ≠ b || a = 0 then return .possible
    else ofFraction lib negC a
  | _, _ => some .possible

theorem outOfRange_eq {srcMax? dstMax? : Option Int} (ha : Fits a) (hb : Fits b) (hc : Fits c)
    (hsrc : ∀ n, srcMax? = some n → Fits n) (hdst : ∀ n, dstMax? = some n → Fits n) :
    outOfRange a b c srcMax? dstMax? =
      some (Conflict.ofEquation.outOfRange a srcMax? dstMax? b c) := by
  cases srcMax? with
  | none => rfl
  | some ns =>
    cases dstMax? with
    | none => rfl
    | some nd =>
      simp only [outOfRange, Conflict.ofEquation.outOfRange]
      split
      case isTrue hneg => rw [hneg, Bool.true_or]
      case isFalse hneg =>
        rw [Bool.not_eq_true] at hneg
        have hpos : 0 ≤ ns ∧ 0 ≤ nd := by
          simp only [Bool.or_eq_false_iff, decide_eq_false_iff_not] at hneg
          omega
        have hlower : Bounds [0, 0] := by simp [Bounds, Fits]
        have hupper : Bounds [ns, nd] := by
          simp only [Bounds, List.forall_mem_cons]
          exact ⟨⟨hpos.1, hsrc ns rfl⟩, ⟨hpos.2, hdst nd rfl⟩, List.forall_mem_nil _⟩
        rw [hneg, Bool.false_or, banerjeeTest_eq ha hb hc hlower hupper]
        rfl

theorem ofEquation_eq (hlib : lib.Sound) {srcMax? dstMax? : Option Int} (ha : Fits a) (hc : Fits c)
    (hsrc : ∀ n, srcMax? = some n → Fits n) (hdst : ∀ n, dstMax? = some n → Fits n) :
    ofEquation lib a b c srcMax? dstMax? = some (Conflict.ofEquation a b c srcMax? dstMax?) := by
  cases hb' : checked (-b) with
  | none => simp only [ofEquation, Conflict.ofEquation, hb']
  | some negB =>
    cases hc' : checked (-c) with
    | none => simp only [ofEquation, Conflict.ofEquation, hb', hc']
    | some negC =>
      have hnegB : Fits negB := (checked_eq_some_iff.1 hb').2 ▸ (checked_eq_some_iff.1 hb').1
      have hnegC : Fits negC := (checked_eq_some_iff.1 hc').2 ▸ (checked_eq_some_iff.1 hc').1
      have hcoeffs : ∀ x ∈ [a, negB], Fits x := by
        simp only [List.forall_mem_cons]
        exact ⟨ha, hnegB, List.forall_mem_nil _⟩
      simp only [ofEquation, Conflict.ofEquation, hb', hc', gcdTest_eq hlib hcoeffs hc,
        outOfRange_eq ha hnegB hnegC hsrc hdst, Option.bind_eq_bind, Option.bind_some,
        Option.pure_def]
      split
      case isTrue => rfl
      case isFalse =>
        split
        case isTrue => rfl
        case isFalse =>
          split
          case isTrue => rfl
          case isFalse hab =>
            simp only [ne_eq, Bool.or_eq_true, decide_eq_true_eq, not_or, not_not] at hab
            rw [ofFraction_eq hlib (proper_of_fits hnegC) (proper_of_fits ha) hab.2]

end LoopFusion.Guarded
