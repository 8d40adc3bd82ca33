import LoopFusion.Proofs.Symbolic.Canonical

/-!
Multiplication as the sum of the products of the terms. The products are added up in the order of the
symbols; the order matters when a partial sum leaves a word and the sum comes back to it.
-/

namespace LoopFusion

namespace Poly

variable {p q r : Poly} {m : Monomial} {c : Int} {t : Monomial × Int} {ts : List (Monomial × Int)}

/-- The products of the terms, in the order in which they are added up. -/
def products (p q : Poly) : List (Monomial × Int) :=
  p.terms.flatMap fun s => q.terms.map fun t => (s.1.times t.1, s.2 * t.2)

theorem mem_products : t ∈ products p q ↔
    ∃ u ∈ p.terms, ∃ v ∈ q.terms, (u.1.times v.1, u.2 * v.2) = t := by
  simp only [products, List.mem_flatMap, List.mem_map]

theorem ordered_products (hq : Canonical q.terms) : ∀ t ∈ products p q, t.1.Ordered := by
  intro t ht
  obtain ⟨u, -, v, hv, rfl⟩ := mem_products.1 ht
  exact (hq.ordered v hv).times u.1

/-- The terms with one more product, when the product fits a word. -/
def addChecked? (acc : List (Monomial × Int)) (t : Monomial × Int) :
    Option (List (Monomial × Int)) := do
  addTerm? t.1 (← checked t.2) acc

theorem foldlM_addChecked (ts acc : List (Monomial × Int)) : ts.foldlM addChecked? acc =
    if ∀ t ∈ ts, Fits t.2 then addTerms? acc ts else none := by
  induction ts generalizing acc with
  | nil => rfl
  | cons t ts ih =>
    rw [List.foldlM_cons, funext ih]
    by_cases h : Fits t.2
    · simp only [addChecked?, checked_of_fits h, List.forall_mem_cons, h, true_and]
      split
      · rfl
      · exact Option.bind_fun_none _
    · simp [addChecked?, checked, h]

theorem foldlM_addProduct (ts us acc : List (Monomial × Int)) :
    ts.foldlM (fun acc t => addProduct? t.1 t.2 us acc) acc =
      (ts.flatMap fun s => us.map fun t => (s.1.times t.1, s.2 * t.2)).foldlM addChecked? acc := by
  induction ts generalizing acc with
  | nil => rfl
  | cons s ts ih =>
    rw [List.foldlM_cons, List.flatMap_cons, List.foldlM_append, List.foldlM_map]
    exact bind_congr fun acc => ih acc

theorem mul?_eq (p q : Poly) : p.mul? q =
    if ∀ t ∈ products p q, Fits t.2 then (addTerms? [] (products p q)).map mk else none := by
  rw [mul?, foldlM_addProduct, ← products, foldlM_addChecked]
  split <;> rfl

/-- To multiply is to add up the products, each of which has to fit a word. -/
theorem mul?_eq_some_iff : p.mul? q = some r ↔
    (∀ t ∈ products p q, Fits t.2) ∧ addTerms? [] (products p q) = some r.terms := by
  rw [mul?_eq]
  split
  case isTrue h =>
    rw [Option.map_eq_some_iff]
    constructor
    · rintro ⟨ts, hts, rfl⟩
      exact ⟨h, hts⟩
    · intro h'
      exact ⟨r.terms, h'.2, rfl⟩
  case isFalse h => exact iff_of_false nofun fun h' => h h'.1

/-- Whatever the order in which the products are added up, the multiplication has an answer, or it
has none. -/
def AnyOrder (p q : Poly) : Prop :=
  (∀ (m : Monomial) (cs : List Int), cs.Sublist (coeffs m (products p q)) → Fits cs.sum) ∨
    ∃ t ∈ products p q, ¬ (Fits t.2 ∧ Fits (total t.1 (products p q)))

theorem canonical_mul (hq : Canonical q.terms) (h : p.mul? q = some r) : Canonical r.terms :=
  canonical_addTerms canonical_nil (ordered_products hq) (mul?_eq_some_iff.1 h).2

theorem total_mul (h : p.mul? q = some r) (m : Monomial) :
    total m r.terms = total m (products p q) := by
  rw [total_addTerms (mul?_eq_some_iff.1 h).2]
  exact zero_add _

/-- When the order does not matter, what matters is whether the products and their sums fit. -/
theorem isSome_mul (hq : Canonical q.terms) (h : AnyOrder p q) : (p.mul? q).isSome ↔
    ∀ t ∈ products p q, Fits t.2 ∧ Fits (total t.1 (products p q)) := by
  have hruns := isSome_addTerms canonical_nil (ordered_products (p := p) hq)
  have hzero : ∀ m, total m [] = 0 := fun _ => rfl
  simp only [hzero] at hruns
  constructor
  · intro hsome t ht
    obtain ⟨r, hr⟩ := Option.isSome_iff_exists.1 hsome
    obtain ⟨hfits, hterms⟩ := mul?_eq_some_iff.1 hr
    have hsum := (hruns.1 (by rw [hterms]; rfl) t.1).fits_sum
      (List.ne_nil_of_mem (mem_coeffs.2 ht))
    rw [zero_add] at hsum
    exact ⟨hfits t ht, hsum⟩
  · intro hall
    have hsums : ∀ m, Runs 0 (coeffs m (products p q)) := by
      obtain hsafe | ⟨t, ht, hno⟩ := h
      · refine fun m => runs_of_prefixes fun ds hds => ?_
        rw [zero_add]
        exact hsafe m ds hds.sublist
      · exact absurd (hall t ht) hno
    obtain ⟨ts, hts⟩ := Option.isSome_iff_exists.1 (hruns.2 hsums)
    rw [Option.isSome_iff_exists]
    exact ⟨⟨ts⟩, mul?_eq_some_iff.2 ⟨fun t ht => (hall t ht).1, hts⟩⟩

theorem anyOrder_of_length_le (h : ∀ m, (coeffs m (products p q)).length ≤ 2) : AnyOrder p q := by
  by_cases hall : ∀ t ∈ products p q, Fits t.2 ∧ Fits (total t.1 (products p q))
  · refine .inl fun m cs hcs => ?_
    match cs with
    | [] => decide
    | [c] =>
      rw [List.sum_singleton]
      exact (hall (m, c) (mem_coeffs.1 (hcs.subset (List.mem_singleton_self c)))).1
    | c :: d :: cs =>
      have heq := hcs.eq_of_length_le ((h m).trans (by simp))
      rw [heq]
      refine (hall (m, c) (mem_coeffs.1 ?_)).2
      rw [← heq]
      exact List.mem_cons_self
  · simp only [not_forall] at hall
    obtain ⟨t, ht, hno⟩ := hall
    exact .inr ⟨t, ht, hno⟩

theorem length_coeffs_le_one (h : (ts.map (·.1)).Nodup) (m : Monomial) :
    (coeffs m ts).length ≤ 1 := by
  have hcount : (coeffs m ts).length = (ts.map (·.1)).count m := by
    rw [coeffs, List.length_map, List.count, List.countP_map, List.countP_eq_length_filter]
    exact congrArg _ (List.filter_congr fun t _ => Bool.eq_iff_iff.2 (by simp))
  rw [hcount]
  exact List.nodup_iff_count_le_one.1 h m

theorem anyOrder_of_single (hp : Canonical p.terms) (hq : Canonical q.terms)
    (h : p.terms.length ≤ 1 ∨ q.terms.length ≤ 1) : AnyOrder p q := by
  suffices hnodup : ((products p q).map (·.1)).Nodup from
    anyOrder_of_length_le fun m => (length_coeffs_le_one hnodup m).trans (by decide)
  have hfactor : ∀ {ts : List (Monomial × Int)}, ts.length ≤ 1 → ts = [] ∨ ∃ t, ts = [t] := by
    rintro (_ | ⟨t, _ | _⟩) h
    · exact .inl rfl
    · exact .inr ⟨t, rfl⟩
    · simp at h
  rw [products]
  obtain h | h := h
  · obtain hnil | ⟨s, hs⟩ := hfactor h
    · simp [hnil]
    · rw [hs, List.flatMap_singleton, List.map_map]
      exact List.pairwise_map.2 <| (List.pairwise_map.1 hq.nodup).imp_of_mem fun ht hu hne heq =>
        hne ((hq.ordered _ ht).times_left_cancel (hq.ordered _ hu) heq)
  · obtain hnil | ⟨t, ht⟩ := hfactor h
    · simp only [hnil, List.map_nil, List.flatMap_eq_nil_iff.2 fun _ _ => rfl, List.nodup_nil]
    · simp only [ht, List.map_cons, List.map_nil, ← List.map_eq_flatMap, List.map_map]
      exact List.pairwise_map.2 <| (List.pairwise_map.1 hp.nodup).imp_of_mem fun hs hu hne heq =>
        hne ((hp.ordered _ hs).times_right_cancel (hp.ordered _ hu) heq)

end Poly

end LoopFusion
