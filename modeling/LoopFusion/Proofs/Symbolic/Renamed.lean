import Mathlib.Data.Multiset.Bind
import LoopFusion.Proofs.Symbolic.Likeness
import LoopFusion.Proofs.Symbolic.Products

/-!
One polynomial in two numberings of its symbols. Arithmetic keeps the correspondence, unless a
multiplication goes through in one order of the symbols only.
-/

namespace LoopFusion

namespace SymbolTable

variable {t : SymbolTable} {s : Symbol} {n : String}

/-- The name of a symbol. A symbol without a name stands for itself. -/
def label (t : SymbolTable) (s : Symbol) : String ⊕ Symbol := (t.name? s).elim (.inr s) .inl

theorem label_of_name? (h : t.name? s = some n) : t.label s = .inl n := by
  rw [label, h, Option.elim_some]

theorem label_of_not_name? (h : t.name? s = none) : t.label s = .inr s := by
  rw [label, h, Option.elim_none]

theorem label_injective (h : t.names.Nodup) : t.label.Injective := by
  intro a b hab
  cases ha : t.name? a with
  | none =>
    rw [label_of_not_name? ha] at hab
    cases hb : t.name? b with
    | none =>
      rw [label_of_not_name? hb] at hab
      exact Sum.inr.inj hab
    | some n =>
      rw [label_of_name? hb] at hab
      cases hab
  | some n =>
    rw [label_of_name? ha] at hab
    cases hb : t.name? b with
    | none =>
      rw [label_of_not_name? hb] at hab
      cases hab
    | some m =>
      rw [label_of_name? hb] at hab
      obtain rfl := Sum.inl.inj hab
      obtain ⟨hlt, ha⟩ := List.getElem?_eq_some_iff.1 ha
      obtain ⟨hlt', hb⟩ := List.getElem?_eq_some_iff.1 hb
      exact (List.Nodup.getElem_inj_iff h).1 (ha.trans hb.symm)

theorem nodup_intern (h : t.names.Nodup) (n : String) : (t.intern n).2.names.Nodup := by
  unfold intern
  split
  case h_1 => exact h
  case h_2 hnone =>
    exact h.append (List.nodup_singleton n)
      (List.disjoint_singleton.2 (List.idxOf?_eq_none_iff.1 hnone))

end SymbolTable

variable {L : Type} {label label' : Symbol → L}

namespace Monomial

variable {a b : Monomial}

/-- The labels of the symbols of the product, in no order. -/
def named (label : Symbol → L) (m : Monomial) : Multiset L := ↑(m.map label)

theorem named_times (a b : Monomial) :
    (a.times b).named label = a.named label + b.named label := by
  rw [named, named, named, Multiset.coe_add, ← List.map_append]
  exact Multiset.coe_eq_coe.2 ((perm_times a b).map label)

theorem Ordered.named_inj (hl : label.Injective) (ha : a.Ordered) (hb : b.Ordered) :
    a.named label = b.named label ↔ a = b := by
  constructor
  · intro h
    exact ha.eq_of_perm hb ((List.map_perm_map_iff hl).1 (Multiset.coe_eq_coe.1 h))
  · rintro rfl
    rfl

end Monomial

namespace Poly

variable {p p' q q' : Poly} {m : Monomial} {c : Int} {k : Multiset L}
  {ts ts' us us' : List (Monomial × Int)}

/-- The terms with labels for the symbols, in no order. -/
def named (label : Symbol → L) (ts : List (Monomial × Int)) : Multiset (Multiset L × Int) :=
  ↑(ts.map fun t => (t.1.named label, t.2))

theorem mem_named {x : Multiset L × Int} :
    x ∈ named label ts ↔ ∃ t ∈ ts, (t.1.named label, t.2) = x := by
  rw [named, Multiset.mem_coe, List.mem_map]

theorem forall_named {P : Multiset L × Int → Prop} :
    (∀ x ∈ named label ts, P x) ↔ ∀ t ∈ ts, P (t.1.named label, t.2) := by
  constructor
  · exact fun h t ht => h _ (mem_named.2 ⟨t, ht, rfl⟩)
  · intro h x hx
    obtain ⟨t, ht, rfl⟩ := mem_named.1 hx
    exact h t ht

theorem named_append : named label (ts ++ us) = named label ts + named label us := by
  rw [named, named, named, List.map_append, Multiset.coe_add]

theorem named_products (p q : Poly) : named label (products p q) =
    (named label p.terms).bind fun x =>
      (named label q.terms).map fun y => (x.1 + y.1, x.2 * y.2) := by
  rw [named, named, named, products, List.map_flatMap]
  simp only [Multiset.map_coe, List.map_map, Multiset.coe_bind, List.flatMap_map]
  simp only [Function.comp_def, Monomial.named_times]

theorem Canonical.nodup_named (hl : label.Injective) (hts : Canonical ts) :
    (named label ts).Nodup := by
  refine Multiset.coe_nodup.2 (List.pairwise_map.2 ?_)
  refine (List.pairwise_map.1 hts.nodup).imp_of_mem fun hs ht hne heq => hne ?_
  exact ((hts.ordered _ hs).named_inj hl (hts.ordered _ ht)).1 (congrArg Prod.fst heq)

theorem Canonical.eq_of_named (hl : label.Injective) (hts : Canonical ts) (hus : Canonical us)
    (h : named label ts = named label us) : ts = us := by
  have hsub : ∀ {ts us : List (Monomial × Int)}, Canonical ts → Canonical us →
      named label ts = named label us → ∀ t ∈ ts, t ∈ us := by
    rintro ts us hts hus h ⟨m, c⟩ ht
    obtain ⟨⟨n, d⟩, hu, heq⟩ := mem_named.1 (h ▸ mem_named.2 ⟨(m, c), ht, rfl⟩)
    obtain ⟨hm, rfl⟩ := Prod.mk.inj heq
    obtain rfl := ((hus.ordered _ hu).named_inj hl (hts.ordered _ ht)).1 hm
    exact hu
  exact hts.ext hus fun t => ⟨hsub hts hus h t, hsub hus hts h.symm t⟩

/-! What the sums are tells what the terms are. -/

section

variable [DecidableEq L]

/-- The sum of the coefficients of a product of labels. -/
def sumAt (k : Multiset L) (N : Multiset (Multiset L × Int)) : Int :=
  ((N.filter (·.1 = k)).map (·.2)).sum

theorem sumAt_named (hl : label.Injective) (hts : ∀ t ∈ ts, t.1.Ordered) (hm : m.Ordered) :
    sumAt (m.named label) (named label ts) = total m ts := by
  rw [sumAt, named, Multiset.filter_coe, Multiset.map_coe, Multiset.sum_coe, List.filter_map,
    List.map_map, total, coeffs]
  congr 2
  refine List.filter_congr fun t ht => ?_
  exact decide_eq_decide.2 ((hts t ht).named_inj hl hm)

theorem exists_mem_of_sumAt {N : Multiset (Multiset L × Int)} (h : sumAt k N ≠ 0) :
    ∃ x ∈ N, x.1 = k := by
  have hne : N.filter (·.1 = k) ≠ 0 := by
    intro h0
    rw [sumAt, h0] at h
    exact h rfl
  obtain ⟨x, hx⟩ := Multiset.exists_mem_of_ne_zero hne
  exact ⟨x, Multiset.mem_filter.1 hx⟩

theorem Canonical.mem_named_iff (hl : label.Injective) (hts : Canonical ts)
    (hus : ∀ t ∈ us, t.1.Ordered) (h : ∀ m, total m ts = total m us) :
    (k, c) ∈ named label ts ↔ c ≠ 0 ∧ sumAt k (named label us) = c := by
  constructor
  · intro hk
    obtain ⟨⟨m, d⟩, ht, heq⟩ := mem_named.1 hk
    obtain ⟨rfl, rfl⟩ := Prod.mk.inj heq
    rw [sumAt_named hl hus (hts.ordered _ ht), ← h]
    exact hts.mem_iff.1 ht
  · rintro ⟨hc, rfl⟩
    obtain ⟨x, hx, rfl⟩ := exists_mem_of_sumAt hc
    obtain ⟨⟨m, d⟩, hu, rfl⟩ := mem_named.1 hx
    rw [sumAt_named hl hus (hus _ hu)] at hc ⊢
    exact mem_named.2 ⟨(m, total m us), hts.mem_iff.2 ⟨hc, h m⟩, rfl⟩

/-- Canonical forms of terms with the same labels have the same labels. -/
theorem named_eq_of_total (hl : label.Injective) (hl' : label'.Injective) (hts : Canonical ts)
    (hts' : Canonical ts') (hus : ∀ t ∈ us, t.1.Ordered) (hus' : ∀ t ∈ us', t.1.Ordered)
    (h : ∀ m, total m ts = total m us) (h' : ∀ m, total m ts' = total m us')
    (hnamed : named label us = named label' us') : named label ts = named label' ts' := by
  refine (Multiset.Nodup.ext (hts.nodup_named hl) (hts'.nodup_named hl')).2 fun ⟨k, c⟩ => ?_
  rw [hts.mem_named_iff hl hus h, hts'.mem_named_iff hl' hus' h', hnamed]

theorem isSome_add_named (hl : label.Injective) (hp : Canonical p.terms) (hq : Canonical q.terms) :
    (p.add? q).isSome ↔
      ∀ x ∈ named label q.terms, Fits (sumAt x.1 (named label p.terms) + x.2) := by
  rw [isSome_add hp hq, forall_named]
  exact forall₂_congr fun t ht => by rw [sumAt_named hl hp.ordered (hq.ordered t ht)]

theorem isSome_mul_named (hl : label.Injective) (hq : Canonical q.terms) (h : AnyOrder p q) :
    (p.mul? q).isSome ↔ ∀ x ∈ named label (products p q),
      Fits x.2 ∧ Fits (sumAt x.1 (named label (products p q))) := by
  have hord := ordered_products (p := p) hq
  rw [isSome_mul hq h, forall_named]
  exact forall₂_congr fun t ht => by rw [sumAt_named hl hord (hord t ht)]

end

/-- Polynomials in canonical form, with the same terms up to the labels of their symbols. -/
structure Renamed (label label' : Symbol → L) (p p' : Poly) : Prop where
  left : Canonical p.terms
  right : Canonical p'.terms
  terms : named label p.terms = named label' p'.terms

theorem Renamed.symm (h : Renamed label label' p p') : Renamed label' label p' p :=
  ⟨h.right, h.left, h.terms.symm⟩

theorem Renamed.length_eq (h : Renamed label label' p p') : p.terms.length = p'.terms.length := by
  simpa [named] using congrArg Multiset.card h.terms

theorem renamed_const (c : Int) : Renamed label label' (const c) (const c) := by
  refine ⟨canonical_const c, canonical_const c, ?_⟩
  rw [const]
  split <;> rfl

theorem renamed_symbol {s s' : Symbol} (h : label s = label' s') :
    Renamed label label' (symbol s) (symbol s') := by
  refine ⟨canonical_symbol s, canonical_symbol s', ?_⟩
  simp [named, symbol, Monomial.named, h]

/-- There are answers on both sides or on neither, and those that there are correspond. -/
theorem rel_of_isSome {R : Poly → Poly → Prop} {x x' : Option Poly} (h : x.isSome ↔ x'.isSome)
    (hR : ∀ r r', x = some r → x' = some r' → R r r') : Option.Rel R x x' := by
  cases x with
  | none =>
    cases x' with
    | none => exact .none
    | some r' => exact absurd (h.2 rfl) nofun
  | some r =>
    cases x' with
    | none => exact absurd (h.1 rfl) nofun
    | some r' => exact .some (hR r r' rfl rfl)

theorem Renamed.neg? (hp : Renamed label label' p p') :
    Option.Rel (Renamed label label') p.neg? p'.neg? := by
  have hne : (-1 : Int) ≠ 0 := by decide
  have hfits : ∀ (label : Symbol → L) (p : Poly),
      p.neg?.isSome ↔ ∀ x ∈ named label p.terms, Fits (x.2 * -1) := fun label p => by
    rw [forall_named]
    exact isSome_scale hne
  have hterms : ∀ (label : Symbol → L) {p r : Poly}, p.neg? = some r →
      named label r.terms = (named label p.terms).map fun x => (x.1, x.2 * -1) := fun label {_ _} h => by
    rw [((scale?_eq_some_iff hne).1 h).2, named, named, Multiset.map_coe, List.map_map, List.map_map]
    rfl
  refine rel_of_isSome ?_ fun r r' hr hr' => ?_
  · rw [hfits label, hfits label', hp.terms]
  · refine ⟨canonical_neg hp.left hr, canonical_neg hp.right hr', ?_⟩
    rw [hterms label hr, hterms label' hr', hp.terms]

section

variable (hl : label.Injective) (hl' : label'.Injective) (hp : Renamed label label' p p')
  (hq : Renamed label label' q q')

include hl' hp hq

theorem Renamed.eq_of_eq (h : p = q) : p' = q' := by
  subst h
  have hterms := hp.right.eq_of_named hl' hq.right (hp.terms.symm.trans hq.terms)
  obtain ⟨ts⟩ := p'
  obtain ⟨us⟩ := q'
  exact congrArg Poly.mk hterms

include hl

theorem Renamed.eq_iff : p = q ↔ p' = q' :=
  ⟨hp.eq_of_eq hl' hq, hp.symm.eq_of_eq hl hq.symm⟩

omit hq in
theorem Renamed.const? : p.const? = p'.const? := by
  refine Option.ext fun c => ?_
  rw [hp.left.const?_eq_some_iff, hp.right.const?_eq_some_iff, hp.eq_iff hl hl' (renamed_const c)]

variable [DecidableEq L]

theorem Renamed.add? : Option.Rel (Renamed label label') (p.add? q) (p'.add? q') := by
  refine rel_of_isSome ?_ fun r r' hr hr' => ?_
  · rw [isSome_add_named hl hp.left hq.left, isSome_add_named hl' hp.right hq.right, hp.terms,
      hq.terms]
  · have hord : ∀ t ∈ p.terms ++ q.terms, t.1.Ordered := fun t ht =>
      (List.mem_append.1 ht).elim (hp.left.ordered t) (hq.left.ordered t)
    have hord' : ∀ t ∈ p'.terms ++ q'.terms, t.1.Ordered := fun t ht =>
      (List.mem_append.1 ht).elim (hp.right.ordered t) (hq.right.ordered t)
    have hc := canonical_add hp.left hq.left hr
    have hc' := canonical_add hp.right hq.right hr'
    refine ⟨hc, hc', named_eq_of_total hl hl' hc hc' hord hord' (total_add hr) (total_add hr') ?_⟩
    rw [named_append, named_append, hp.terms, hq.terms]

theorem Renamed.mul? (h : AnyOrder p q) (h' : AnyOrder p' q') :
    Option.Rel (Renamed label label') (p.mul? q) (p'.mul? q') := by
  have hproducts : named label (products p q) = named label' (products p' q') := by
    rw [named_products, named_products, hp.terms, hq.terms]
  refine rel_of_isSome ?_ fun r r' hr hr' => ?_
  · rw [isSome_mul_named hl hq.left h, isSome_mul_named hl' hq.right h', hproducts]
  · have hc := canonical_mul hq.left hr
    have hc' := canonical_mul hq.right hr'
    exact ⟨hc, hc', named_eq_of_total hl hl' hc hc' (ordered_products hq.left)
      (ordered_products hq.right) (total_mul hr) (total_mul hr') hproducts⟩

end

theorem length_le_one_of_isNonZero (h : p.isNonZero) : p.terms.length ≤ 1 := by
  rw [isNonZero, const?] at h
  split at h
  case h_1 hp => simp [hp]
  case h_2 hp => simp [hp]
  case h_3 => cases h

theorem congruence_renamed [DecidableEq L] (hl : label.Injective) (hl' : label'.Injective) :
    Congruence (Renamed label label') where
  const := renamed_const
  const? h := h.const? hl hl'
  eq_iff hp hq := hp.eq_iff hl hl' hq
  add? hp hq := hp.add? hl hl' hq
  neg? := Renamed.neg?
  mul? {_ _ k k'} hp hk hnz := by
    have hnz' : k'.isNonZero := by rwa [isNonZero, ← hk.const? hl hl']
    exact hp.mul? hl hl' hk
      (anyOrder_of_single hp.left hk.left (.inr (length_le_one_of_isNonZero hnz)))
      (anyOrder_of_single hp.right hk.right (.inr (length_le_one_of_isNonZero hnz')))

end Poly

end LoopFusion
