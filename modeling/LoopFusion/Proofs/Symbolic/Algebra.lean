import Mathlib.Algebra.MvPolynomial.Funext
import Mathlib.Data.Finsupp.Multiset
import LoopFusion.Proofs.Symbolic.Products

/-!
Polynomials as functions of their symbols. What the operations make of numbers and symbols is in
normal form, and a polynomial in normal form is told by its values.
-/

namespace LoopFusion

variable {ρ : Symbol → Int}

namespace Monomial

variable {a b : Monomial}

/-- How often each symbol occurs. -/
noncomputable def degrees (m : Monomial) : Symbol →₀ Nat := Multiset.toFinsupp (m : Multiset Symbol)

theorem Ordered.eq_of_degrees (ha : a.Ordered) (hb : b.Ordered) (h : a.degrees = b.degrees) :
    a = b := by
  apply ha.eq_of_perm hb
  apply Multiset.coe_eq_coe.1
  exact Multiset.toFinsupp.injective h

theorem prod_degrees (m : Monomial) : (m.degrees.prod fun s k => ρ s ^ k) = m.eval ρ := by
  rw [eval, ← Multiset.prod_coe, ← Multiset.map_coe, Finset.prod_multiset_map_count]
  rfl

end Monomial

namespace Poly

variable {p q r : Poly} {m : Monomial} {c k : Int} {ts us : List (Monomial × Int)}

/-- The terms as an element of the polynomial ring. -/
noncomputable def form (ts : List (Monomial × Int)) : MvPolynomial Symbol Int :=
  (ts.map fun t => MvPolynomial.monomial t.1.degrees t.2).sum

theorem form_cons (t : Monomial × Int) (ts : List (Monomial × Int)) :
    form (t :: ts) = MvPolynomial.monomial t.1.degrees t.2 + form ts := rfl

theorem eval_form (ts : List (Monomial × Int)) : MvPolynomial.eval ρ (form ts) = sum ρ ts := by
  induction ts with
  | nil => exact map_zero _
  | cons t ts ih =>
    rw [form_cons, map_add, MvPolynomial.eval_monomial, Monomial.prod_degrees, ih, sum_cons]

theorem coeff_form (hm : m.Ordered) (hts : ∀ t ∈ ts, t.1.Ordered) :
    (form ts).coeff m.degrees = total m ts := by
  induction ts with
  | nil => rfl
  | cons t ts ih =>
    obtain ⟨n, c⟩ := t
    obtain ⟨hn, hts⟩ := List.forall_mem_cons.1 hts
    rw [form_cons, MvPolynomial.coeff_add, MvPolynomial.coeff_monomial, ih hts, total_cons,
      total_singleton]
    by_cases h : n = m
    · rw [if_pos h, if_pos (congrArg Monomial.degrees h)]
    · rw [if_neg h, if_neg fun hd => h (hn.eq_of_degrees hm hd)]

/-- Over the integers a polynomial in canonical form is told by its values. -/
theorem Canonical.eq_of_sum (hts : Canonical ts) (hus : Canonical us)
    (h : ∀ ρ, sum ρ ts = sum ρ us) : ts = us := by
  have hform : form ts = form us := by
    apply MvPolynomial.funext
    intro ρ
    rw [eval_form, eval_form, h]
  have htotal : ∀ m : Monomial, m.Ordered → total m ts = total m us := by
    intro m hm
    rw [← coeff_form hm hts.ordered, hform, coeff_form hm hus.ordered]
  apply hts.ext hus
  rintro ⟨m, c⟩
  constructor
  · intro ht
    rwa [hus.mem_iff, ← htotal m (hts.ordered _ ht), ← hts.mem_iff]
  · intro hu
    rwa [hts.mem_iff, htotal m (hus.ordered _ hu), ← hus.mem_iff]

/-! Coefficients. -/

/-- The coefficients are words. -/
def Words (ts : List (Monomial × Int)) : Prop := ∀ t ∈ ts, Fits t.2

theorem words_addTerm (hm : m.Ordered) (hts : Canonical ts) (hw : Words ts)
    (h : addTerm? m c ts = some us) : Words us := by
  have hus := canonical_addTerm hm hts h
  rintro ⟨n, d⟩ ht
  obtain ⟨hd, htotal⟩ := hus.mem_iff.1 ht
  rw [total_addTerm h, total_singleton] at htotal
  by_cases hn : m = n
  · -- the sum at `m` has been checked
    subst hn
    rw [if_pos rfl] at htotal
    have hfits : Fits (total m ts + c) := (isSome_addTerm hts).1 (by rw [h]; rfl)
    rwa [htotal] at hfits
  · rw [if_neg hn, add_zero] at htotal
    exact hw _ (hts.mem_iff.2 ⟨hd, htotal⟩)

theorem words_addTerms (hts : Canonical ts) (hw : Words ts) (hus : ∀ t ∈ us, t.1.Ordered)
    {vs : List (Monomial × Int)} (h : addTerms? ts us = some vs) : Words vs := by
  induction us generalizing ts with
  | nil => exact Option.some.inj h ▸ hw
  | cons t us ih =>
    obtain ⟨ws, hws, h⟩ := Option.bind_eq_some_iff.1 h
    obtain ⟨ht, hus⟩ := List.forall_mem_cons.1 hus
    exact ih (canonical_addTerm ht hts hws) (words_addTerm ht hts hw hws) hus h

theorem words_scale (h : p.scale? k = some r) : Words r.terms := by
  by_cases hk : k = 0
  · rw [scale?, if_pos hk] at h
    obtain rfl := Option.some.inj h
    exact List.forall_mem_nil _
  · obtain ⟨hfits, hr⟩ := (scale?_eq_some_iff hk).1 h
    rw [hr]
    exact List.forall_mem_map.2 hfits

/-! The normal form. -/

/-- The terms are in canonical form, and their coefficients are words. -/
structure Normal (p : Poly) : Prop where
  canonical : Canonical p.terms
  words : Words p.terms

theorem normal_const (hc : Fits c) : (const c).Normal := by
  refine ⟨canonical_const c, ?_⟩
  rw [const]
  split
  · exact List.forall_mem_nil _
  · exact List.forall_mem_singleton.2 hc

theorem normal_symbol (s : Symbol) : (symbol s).Normal :=
  ⟨canonical_symbol s, List.forall_mem_singleton.2 (show Fits 1 by decide)⟩

namespace Normal

theorem add (hp : p.Normal) (hq : q.Normal) (h : p.add? q = some r) : r.Normal := by
  obtain ⟨ts, hts, rfl⟩ := Option.map_eq_some_iff.1 h
  exact ⟨canonical_addTerms hp.canonical hq.canonical.ordered hts,
    words_addTerms hp.canonical hp.words hq.canonical.ordered hts⟩

theorem scale (hp : p.Normal) (h : p.scale? k = some r) : r.Normal :=
  ⟨canonical_scale hp.canonical h, words_scale h⟩

theorem neg (hp : p.Normal) (h : p.neg? = some r) : r.Normal := hp.scale h

theorem sub (hp : p.Normal) (hq : q.Normal) (h : p.sub? q = some r) : r.Normal := by
  obtain ⟨n, hn, h⟩ := Option.bind_eq_some_iff.1 h
  exact hp.add (hq.neg hn) h

theorem mul (hq : q.Normal) (h : p.mul? q = some r) : r.Normal := by
  refine ⟨canonical_mul hq.canonical h, ?_⟩
  obtain ⟨-, hterms⟩ := mul?_eq_some_iff.1 h
  exact words_addTerms canonical_nil (List.forall_mem_nil _) (ordered_products hq.canonical) hterms

theorem eq_iff (hp : p.Normal) (hq : q.Normal) : p = q ↔ ∀ ρ, p.eval ρ = q.eval ρ := by
  constructor
  · rintro rfl ρ
    rfl
  · intro h
    exact congrArg Poly.mk (hp.canonical.eq_of_sum hq.canonical h)

theorem const?_eq_some_iff (hp : p.Normal) : p.const? = some c ↔ ∀ ρ, p.eval ρ = c := by
  constructor
  · intro h ρ
    exact eval_of_const? h
  · intro h
    apply hp.canonical.const?_eq_some_iff.2
    apply congrArg Poly.mk
    apply hp.canonical.eq_of_sum (canonical_const c)
    intro ρ
    exact (h ρ).trans (eval_const c).symm

theorem fits_const? (hp : p.Normal) (h : p.const? = some c) : Fits c := by
  obtain rfl := hp.canonical.const?_eq_some_iff.1 h
  have hw := hp.words
  rw [const] at hw
  split at hw
  case isTrue hc =>
    rw [hc]
    decide
  case isFalse => exact hw ([], c) (List.mem_singleton_self _)

end Normal

/-- What the operations make of numbers and symbols. -/
inductive Built : Poly → Prop
  | const {c : Int} : Fits c → Built (.const c)
  | symbol (s : Symbol) : Built (.symbol s)
  | add {p q r : Poly} : Built p → Built q → p.add? q = some r → Built r
  | sub {p q r : Poly} : Built p → Built q → p.sub? q = some r → Built r
  | neg {p r : Poly} : Built p → p.neg? = some r → Built r
  | scale {p r : Poly} (k : Int) : Built p → p.scale? k = some r → Built r
  | mul {p q r : Poly} : Built p → Built q → p.mul? q = some r → Built r

theorem Built.normal (h : p.Built) : p.Normal := by
  induction h with
  | const hc => exact normal_const hc
  | symbol s => exact normal_symbol s
  | add _ _ h hp hq => exact hp.add hq h
  | sub _ _ h hp hq => exact hp.sub hq h
  | neg _ h hp => exact hp.neg h
  | scale _ _ h hp => exact hp.scale h
  | mul _ _ h _ hq => exact hq.mul h

/-- Arithmetic keeps the normal form and is arithmetic on the values, and polynomials are equal if
their values are. -/
theorem algebra_exact (hp : p.Built) (hq : q.Built) : p.Normal ∧
    (∀ r, p.add? q = some r → r.Normal ∧ ∀ ρ, r.eval ρ = p.eval ρ + q.eval ρ) ∧
    (∀ r, p.sub? q = some r → r.Normal ∧ ∀ ρ, r.eval ρ = p.eval ρ - q.eval ρ) ∧
    (∀ r, p.neg? = some r → r.Normal ∧ ∀ ρ, r.eval ρ = -p.eval ρ) ∧
    (∀ k r, p.scale? k = some r → r.Normal ∧ ∀ ρ, r.eval ρ = k * p.eval ρ) ∧
    (∀ r, p.mul? q = some r → r.Normal ∧ ∀ ρ, r.eval ρ = p.eval ρ * q.eval ρ) ∧
    (p = q ↔ ∀ ρ, p.eval ρ = q.eval ρ) := by
  have hp := hp.normal
  have hq := hq.normal
  refine ⟨hp, fun r h => ?add, fun r h => ?sub, fun r h => ?neg, fun k r h => ?scale,
    fun r h => ?mul, hp.eq_iff hq⟩
  case add => exact ⟨hp.add hq h, fun ρ => eval_add h⟩
  case sub => exact ⟨hp.sub hq h, fun ρ => eval_sub h⟩
  case neg => exact ⟨hp.neg h, fun ρ => eval_neg h⟩
  case scale => exact ⟨hp.scale h, fun ρ => eval_scale h⟩
  case mul => exact ⟨hq.mul h, fun ρ => eval_mul h⟩

/-- In the product of `x + y` and `x - y` the mixed terms cancel. -/
theorem algebra_exact_squares : Built ⟨[([0], 1), ([1], 1)]⟩ ∧ Built ⟨[([0], 1), ([1], -1)]⟩ ∧
    Normal ⟨[([0, 0], 1), ([1, 1], -1)]⟩ ∧
    (∀ ρ, eval ρ ⟨[([0, 0], 1), ([1, 1], -1)]⟩ =
      eval ρ ⟨[([0], 1), ([1], 1)]⟩ * eval ρ ⟨[([0], 1), ([1], -1)]⟩) ∧
    ∃ ρ, eval ρ ⟨[([0], 1), ([1], 1)]⟩ ≠ eval ρ ⟨[([0], 1), ([1], -1)]⟩ := by
  have hsum : Built ⟨[([0], 1), ([1], 1)]⟩ := .add (.symbol 0) (.symbol 1) (by decide)
  have hdiff : Built ⟨[([0], 1), ([1], -1)]⟩ := .sub (.symbol 0) (.symbol 1) (by decide)
  obtain ⟨-, -, -, -, -, hmul, heq⟩ := algebra_exact hsum hdiff
  obtain ⟨hnormal, heval⟩ := hmul ⟨[([0, 0], 1), ([1, 1], -1)]⟩ (by decide)
  exact ⟨hsum, hdiff, hnormal, heval, not_forall.1 (mt heq.2 (by decide))⟩

end Poly

end LoopFusion
