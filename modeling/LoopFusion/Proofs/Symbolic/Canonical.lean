import Mathlib.Data.List.Sort
import Mathlib.Order.Nat
import LoopFusion.Proofs.Symbolic.PolyValue

/-!
Polynomials in canonical form. Arithmetic keeps the form; and it has an answer when, monomial by
monomial, every partial sum of coefficients fits a word.
-/

namespace LoopFusion

namespace Monomial

variable {a b c : Monomial} {s : Symbol}

theorem cmp_eq_compareLex : cmp = List.compareLex compare := by
  funext a b
  induction a generalizing b with
  | nil => cases b <;> rfl
  | cons s a ih =>
    cases b with
    | nil => rfl
    | cons t b => rw [cmp, ih, List.compareLex]; cases compare s t <;> rfl

instance : Std.TransCmp cmp := cmp_eq_compareLex ▸ inferInstance

/-- The symbols of the product are in order. -/
def Ordered (m : Monomial) : Prop := m.Pairwise (· ≤ ·)

theorem insert_eq_orderedInsert (s : Symbol) (a : Monomial) :
    insert s a = a.orderedInsert (· ≤ ·) s := by
  induction a with
  | nil => rfl
  | cons t a ih => rw [insert, List.orderedInsert, ih]

theorem perm_times (a b : Monomial) : (a.times b).Perm (a ++ b) := by
  induction a with
  | nil => exact .refl _
  | cons s a ih =>
    change (insert s (times a b)).Perm _
    rw [insert_eq_orderedInsert]
    exact (List.perm_orderedInsert _ _ _).trans (ih.cons s)

theorem Ordered.times (hb : b.Ordered) (a : Monomial) : (a.times b).Ordered := by
  induction a with
  | nil => exact hb
  | cons s a ih =>
    change (insert s (Monomial.times a b)).Ordered
    rw [insert_eq_orderedInsert]
    exact List.Pairwise.orderedInsert s _ ih

theorem Ordered.eq_of_perm (ha : a.Ordered) (hb : b.Ordered) (h : a.Perm b) : a = b :=
  h.eq_of_pairwise (fun _ _ _ _ => Nat.le_antisymm) ha hb

theorem Ordered.times_left_cancel (ha : a.Ordered) (hb : b.Ordered) (h : c.times a = c.times b) :
    a = b :=
  ha.eq_of_perm hb <| (List.perm_append_left_iff c).1 <|
    (perm_times c a).symm.trans <| h ▸ perm_times c b

theorem Ordered.times_right_cancel (ha : a.Ordered) (hb : b.Ordered) (h : a.times c = b.times c) :
    a = b :=
  ha.eq_of_perm hb <| (List.perm_append_right_iff c).1 <|
    (perm_times a c).symm.trans <| h ▸ perm_times b c

end Monomial

namespace Poly

variable {p q r : Poly} {m n : Monomial} {c d : Int} {t : Monomial × Int}
  {ts us vs : List (Monomial × Int)} {cs : List Int}

theorem isSome_checked : (checked c).isSome ↔ Fits c := by
  unfold checked
  split <;> simp_all

/-! What stands at a monomial. -/

/-- The coefficients of a monomial, one after the other. -/
def coeffs (m : Monomial) (ts : List (Monomial × Int)) : List Int :=
  (ts.filter (·.1 = m)).map (·.2)

def total (m : Monomial) (ts : List (Monomial × Int)) : Int := (coeffs m ts).sum

theorem mem_coeffs : c ∈ coeffs m ts ↔ (m, c) ∈ ts := by
  simp [coeffs]

theorem coeffs_cons_self (m : Monomial) (c : Int) (ts : List (Monomial × Int)) :
    coeffs m ((m, c) :: ts) = c :: coeffs m ts := by
  simp [coeffs]

theorem coeffs_cons_of_ne (h : t.1 ≠ m) (ts : List (Monomial × Int)) :
    coeffs m (t :: ts) = coeffs m ts := by
  simp [coeffs, h]

theorem coeffs_eq_nil (h : ∀ t ∈ ts, t.1 ≠ m) : coeffs m ts = [] :=
  List.eq_nil_iff_forall_not_mem.2 fun _ hc => h _ (mem_coeffs.1 hc) rfl

theorem total_eq_zero (h : ∀ t ∈ ts, t.1 ≠ m) : total m ts = 0 := by
  rw [total, coeffs_eq_nil h, List.sum_nil]

theorem exists_mem_of_total (h : total m ts ≠ 0) : ∃ t ∈ ts, t.1 = m := by
  by_contra hno
  exact h (total_eq_zero fun t ht hm => hno ⟨t, ht, hm⟩)

theorem total_cons (m : Monomial) (t : Monomial × Int) (ts : List (Monomial × Int)) :
    total m (t :: ts) = total m [t] + total m ts := by
  obtain ⟨n, c⟩ := t
  by_cases h : n = m
  · subst h
    rw [total, total, total, coeffs_cons_self, coeffs_cons_self]
    simp [coeffs]
  · rw [total, total, total, coeffs_cons_of_ne h, coeffs_cons_of_ne h]
    simp [coeffs]

theorem total_singleton (m n : Monomial) (c : Int) : total m [(n, c)] = if n = m then c else 0 := by
  by_cases h : n = m <;> simp [total, coeffs, h]

/-! The canonical form. -/

/-- The monomials increase and are in order themselves, and no coefficient is zero. -/
structure Canonical (ts : List (Monomial × Int)) : Prop where
  increasing : ts.Pairwise fun s t => s.1.cmp t.1 = .lt
  ordered : ∀ t ∈ ts, t.1.Ordered
  nonzero : ∀ t ∈ ts, t.2 ≠ 0

theorem canonical_nil : Canonical [] := ⟨.nil, by simp, by simp⟩

theorem canonical_cons : Canonical (t :: ts) ↔
    (∀ u ∈ ts, t.1.cmp u.1 = .lt) ∧ t.1.Ordered ∧ t.2 ≠ 0 ∧ Canonical ts := by
  constructor
  · rintro ⟨hinc, hord, hnz⟩
    rw [List.pairwise_cons] at hinc
    rw [List.forall_mem_cons] at hord hnz
    exact ⟨hinc.1, hord.1, hnz.1, hinc.2, hord.2, hnz.2⟩
  · rintro ⟨habove, hord, hnz, hts⟩
    exact ⟨List.pairwise_cons.2 ⟨habove, hts.increasing⟩,
      List.forall_mem_cons.2 ⟨hord, hts.ordered⟩, List.forall_mem_cons.2 ⟨hnz, hts.nonzero⟩⟩

theorem ne_of_cmp_lt (h : m.cmp n = .lt) : n ≠ m := by
  rintro rfl
  have hself : n.cmp n = .eq := Std.ReflCmp.compare_self
  rw [hself] at h
  cases h

theorem Canonical.coeffs_of_mem (hts : Canonical ts) (h : (m, c) ∈ ts) : coeffs m ts = [c] := by
  induction ts with
  | nil => cases h
  | cons t ts ih =>
    obtain ⟨habove, -, -, hts⟩ := canonical_cons.1 hts
    rcases List.mem_cons.1 h with rfl | h
    · rw [coeffs_cons_self, coeffs_eq_nil fun u hu => ne_of_cmp_lt (habove u hu)]
    · rw [coeffs_cons_of_ne (ne_of_cmp_lt (habove _ h)).symm, ih hts h]

theorem Canonical.mem_iff (hts : Canonical ts) : (m, c) ∈ ts ↔ c ≠ 0 ∧ total m ts = c := by
  constructor
  · intro h
    exact ⟨hts.nonzero _ h, by rw [total, hts.coeffs_of_mem h, List.sum_singleton]⟩
  · rintro ⟨hc, rfl⟩
    obtain ⟨⟨n, d⟩, ht, rfl⟩ := exists_mem_of_total hc
    rwa [total, hts.coeffs_of_mem ht, List.sum_singleton]

theorem Canonical.nodup (hts : Canonical ts) : (ts.map (·.1)).Nodup :=
  List.pairwise_map.2 (hts.increasing.imp fun h => (ne_of_cmp_lt h).symm)

theorem Canonical.ext (hts : Canonical ts) (hus : Canonical us) (h : ∀ t, t ∈ ts ↔ t ∈ us) :
    ts = us := by
  have hperm : ts.Perm us := (List.perm_ext_iff_of_nodup hts.nodup.of_map hus.nodup.of_map).2 h
  have hasymm : ∀ s t : Monomial × Int, s.1.cmp t.1 = .lt → t.1.cmp s.1 = .lt → s = t :=
    fun _ _ h h' => absurd h' (Std.OrientedCmp.not_lt_of_lt h)
  exact hperm.eq_of_pairwise (fun s t _ _ => hasymm s t) hts.increasing hus.increasing

theorem canonical_const (c : Int) : Canonical (const c).terms := by
  rw [const]
  split
  case isTrue => exact canonical_nil
  case isFalse h => exact canonical_cons.2 ⟨by simp, .nil, h, canonical_nil⟩

theorem canonical_symbol (s : Symbol) : Canonical (symbol s).terms :=
  canonical_cons.2 ⟨by simp, List.pairwise_singleton _ s, one_ne_zero, canonical_nil⟩

theorem Canonical.const?_eq_some_iff (hp : Canonical p.terms) : p.const? = some c ↔ p = const c := by
  obtain ⟨ts⟩ := p
  constructor
  · intro h
    rw [const?] at h
    split at h
    case h_1 hnil =>
      obtain rfl := Option.some.inj h
      exact congrArg Poly.mk hnil
    case h_2 d hone =>
      obtain rfl := Option.some.inj h
      have hd : d ≠ 0 := hp.nonzero ([], d) (hone ▸ List.mem_singleton_self _)
      rw [const, if_neg hd]
      exact congrArg Poly.mk hone
    case h_3 => cases h
  · intro h
    rw [h, const]
    split
    case isTrue h => exact congrArg some h.symm
    case isFalse => rfl

/-! Sums. -/

theorem canonical_consTerm (hm : m.Ordered) (habove : ∀ t ∈ ts, m.cmp t.1 = .lt)
    (hts : Canonical ts) : Canonical (consTerm m c ts) := by
  rw [consTerm]
  split
  case isTrue => exact hts
  case isFalse h => exact canonical_cons.2 ⟨habove, hm, h, hts⟩

theorem total_consTerm (n m : Monomial) (c : Int) (ts : List (Monomial × Int)) :
    total n (consTerm m c ts) = total n ts + total n [(m, c)] := by
  rw [consTerm]
  split
  case isTrue h => rw [total_singleton, h, ite_self, add_zero]
  case isFalse => rw [total_cons, add_comm]

theorem forall_consTerm {P : Monomial → Prop} (hm : P m) (hts : ∀ t ∈ ts, P t.1) :
    ∀ t ∈ consTerm m c ts, P t.1 := by
  rw [consTerm]
  split
  case isTrue => exact hts
  case isFalse => exact List.forall_mem_cons.2 ⟨hm, hts⟩

/-- The ways in which a term is added: in front, to the first one, or further on. -/
theorem addTerm_cases (h : addTerm? m c ts = some us) :
    (ts = [] ∧ us = consTerm m c []) ∨
    ∃ n d rest, ts = (n, d) :: rest ∧
      ((m.cmp n = .lt ∧ us = consTerm m c ts) ∨
        (m = n ∧ us = consTerm m (d + c) rest) ∨
        (n.cmp m = .lt ∧ ∃ vs, addTerm? m c rest = some vs ∧ us = (n, d) :: vs)) := by
  cases ts with
  | nil =>
    obtain ⟨d, hd, rfl⟩ := Option.map_eq_some_iff.1 h
    obtain ⟨-, rfl⟩ := checked_eq_some_iff.1 hd
    exact .inl ⟨rfl, rfl⟩
  | cons t rest =>
    obtain ⟨n, d⟩ := t
    refine .inr ⟨n, d, rest, rfl, ?_⟩
    rw [addTerm?] at h
    split at h
    case h_1 hcmp =>
      obtain ⟨_, hd, rfl⟩ := Option.map_eq_some_iff.1 h
      obtain ⟨-, rfl⟩ := checked_eq_some_iff.1 hd
      exact .inl ⟨hcmp, rfl⟩
    case h_2 hcmp =>
      obtain ⟨_, hd, rfl⟩ := Option.map_eq_some_iff.1 h
      obtain ⟨-, rfl⟩ := checked_eq_some_iff.1 hd
      obtain rfl := Monomial.eq_of_cmp hcmp
      exact .inr (.inl ⟨rfl, rfl⟩)
    case h_3 hcmp =>
      obtain ⟨vs, hvs, rfl⟩ := Option.map_eq_some_iff.1 h
      exact .inr (.inr ⟨Std.OrientedCmp.gt_iff_lt.1 hcmp, vs, hvs, rfl⟩)

theorem forall_addTerm {P : Monomial → Prop} (hm : P m) (hts : ∀ t ∈ ts, P t.1)
    (h : addTerm? m c ts = some us) : ∀ t ∈ us, P t.1 := by
  induction ts generalizing us with
  | nil =>
    obtain ⟨-, rfl⟩ | ⟨_, _, _, hnil, -⟩ := addTerm_cases h
    · exact forall_consTerm hm hts
    · cases hnil
  | cons t ts ih =>
    obtain ⟨hnil, -⟩ | ⟨n, d, rest, hcons, hcase⟩ := addTerm_cases h
    · cases hnil
    · cases hcons
      have hrest := (List.forall_mem_cons.1 hts).2
      obtain ⟨-, rfl⟩ | ⟨rfl, rfl⟩ | ⟨-, vs, hvs, rfl⟩ := hcase
      · exact forall_consTerm hm hts
      · exact forall_consTerm hm hrest
      · exact List.forall_mem_cons.2 ⟨(List.forall_mem_cons.1 hts).1, ih hrest hvs⟩

theorem canonical_addTerm (hm : m.Ordered) (hts : Canonical ts) (h : addTerm? m c ts = some us) :
    Canonical us := by
  induction ts generalizing us with
  | nil =>
    obtain ⟨-, rfl⟩ | ⟨_, _, _, hnil, -⟩ := addTerm_cases h
    · exact canonical_consTerm hm (by simp) canonical_nil
    · cases hnil
  | cons t ts ih =>
    obtain ⟨hnil, -⟩ | ⟨n, d, rest, hcons, hcase⟩ := addTerm_cases h
    · cases hnil
    · cases hcons
      obtain ⟨habove, hn, hd, hrest⟩ := canonical_cons.1 hts
      obtain ⟨hlt, rfl⟩ | ⟨rfl, rfl⟩ | ⟨hlt, vs, hvs, rfl⟩ := hcase
      · exact canonical_consTerm hm
          (List.forall_mem_cons.2 ⟨hlt, fun u hu => Std.TransCmp.lt_trans hlt (habove u hu)⟩) hts
      · exact canonical_consTerm hn habove hrest
      · exact canonical_cons.2 ⟨forall_addTerm (P := (n.cmp · = .lt)) hlt habove hvs, hn, hd,
          ih hrest hvs⟩

theorem total_addTerm (h : addTerm? m c ts = some us) (n : Monomial) :
    total n us = total n ts + total n [(m, c)] := by
  induction ts generalizing us with
  | nil =>
    obtain ⟨-, rfl⟩ | ⟨_, _, _, hnil, -⟩ := addTerm_cases h
    · exact total_consTerm n m c []
    · cases hnil
  | cons t ts ih =>
    obtain ⟨hnil, -⟩ | ⟨k, d, rest, hcons, hcase⟩ := addTerm_cases h
    · cases hnil
    · cases hcons
      obtain ⟨-, rfl⟩ | ⟨rfl, rfl⟩ | ⟨-, vs, hvs, rfl⟩ := hcase
      · exact total_consTerm n m c _
      · rw [total_consTerm, total_cons n (m, d), total_singleton, total_singleton, total_singleton]
        split <;> omega
      · rw [total_cons n (k, d) vs, total_cons n (k, d) ts, ih hvs, add_assoc]

theorem isSome_addTerm (hts : Canonical ts) : (addTerm? m c ts).isSome ↔ Fits (total m ts + c) := by
  induction ts with
  | nil => rw [addTerm?, Option.isSome_map, isSome_checked, total_eq_zero (by simp), zero_add]
  | cons t ts ih =>
    obtain ⟨n, d⟩ := t
    obtain ⟨habove, -, -, hts⟩ := canonical_cons.1 hts
    rw [addTerm?]
    split
    case h_1 hlt =>
      have hnone : ∀ u ∈ (n, d) :: ts, u.1 ≠ m := List.forall_mem_cons.2
        ⟨ne_of_cmp_lt hlt, fun u hu => ne_of_cmp_lt (Std.TransCmp.lt_trans hlt (habove u hu))⟩
      rw [Option.isSome_map, isSome_checked, total_eq_zero hnone, zero_add]
    case h_2 heq =>
      obtain rfl := Monomial.eq_of_cmp heq
      rw [Option.isSome_map, isSome_checked, total, coeffs_cons_self,
        coeffs_eq_nil fun u hu => ne_of_cmp_lt (habove u hu), List.sum_singleton]
    case h_3 hgt =>
      have hne : n ≠ m := (ne_of_cmp_lt (Std.OrientedCmp.gt_iff_lt.1 hgt)).symm
      rw [Option.isSome_map, ih hts, total, total, coeffs_cons_of_ne hne]

/-- Every partial sum of the numbers fits a word, counted from `d`. -/
def Runs : Int → List Int → Prop
  | _, [] => True
  | d, c :: cs => Fits (d + c) ∧ Runs (d + c) cs

theorem Runs.fits_sum (h : Runs d cs) (hne : cs ≠ []) : Fits (d + cs.sum) := by
  induction cs generalizing d with
  | nil => exact absurd rfl hne
  | cons c cs ih =>
    obtain ⟨hfits, hrest⟩ := h
    rw [List.sum_cons, ← add_assoc]
    cases cs with
    | nil => rwa [List.sum_nil, add_zero]
    | cons _ _ => exact ih hrest (List.cons_ne_nil _ _)

theorem runs_of_prefixes (h : ∀ ds, ds <+: cs → Fits (d + ds.sum)) : Runs d cs := by
  induction cs generalizing d with
  | nil => trivial
  | cons c cs ih =>
    refine ⟨by simpa using h [c] (by simp), ih fun ds hds => ?_⟩
    rw [add_assoc, ← List.sum_cons]
    exact h _ (List.cons_prefix_cons.2 ⟨rfl, hds⟩)

theorem total_addTerms (h : addTerms? ts us = some vs) (m : Monomial) :
    total m vs = total m ts + total m us := by
  induction us generalizing ts with
  | nil =>
    obtain rfl := Option.some.inj h
    exact (add_zero _).symm
  | cons t us ih =>
    obtain ⟨ws, hws, h⟩ := Option.bind_eq_some_iff.1 h
    rw [ih h, total_addTerm hws, total_cons m t us, add_assoc]

theorem canonical_addTerms (hts : Canonical ts) (hus : ∀ t ∈ us, t.1.Ordered)
    (h : addTerms? ts us = some vs) : Canonical vs := by
  induction us generalizing ts with
  | nil => exact Option.some.inj h ▸ hts
  | cons t us ih =>
    obtain ⟨ws, hws, h⟩ := Option.bind_eq_some_iff.1 h
    obtain ⟨ht, hus⟩ := List.forall_mem_cons.1 hus
    exact ih (canonical_addTerm ht hts hws) hus h

/-- Terms can be added one after the other when the sums on each monomial stay within a word. -/
theorem isSome_addTerms (hts : Canonical ts) (hus : ∀ t ∈ us, t.1.Ordered) :
    (addTerms? ts us).isSome ↔ ∀ m, Runs (total m ts) (coeffs m us) := by
  induction us generalizing ts with
  | nil => exact ⟨fun _ _ => trivial, fun _ => rfl⟩
  | cons t us ih =>
    obtain ⟨n, c⟩ := t
    obtain ⟨hn, hus⟩ := List.forall_mem_cons.1 hus
    have hfirst := isSome_addTerm (m := n) (c := c) hts
    change ((addTerm? n c ts).bind fun ws => addTerms? ws us).isSome ↔ _
    cases hws : addTerm? n c ts with
    | none =>
      rw [hws] at hfirst
      refine ⟨nofun, fun h => ?_⟩
      have hn := h n
      rw [coeffs_cons_self] at hn
      exact absurd (hfirst.2 hn.1) nofun
    | some ws =>
      rw [Option.bind_some, ih (canonical_addTerm hn hts hws) hus]
      have hfits : Fits (total n ts + c) := hfirst.1 (by rw [hws]; rfl)
      refine forall_congr' fun m => ?_
      rw [total_addTerm hws, total_singleton]
      by_cases h : n = m
      · subst h
        rw [if_pos rfl, coeffs_cons_self]
        exact ⟨fun h => ⟨hfits, h⟩, And.right⟩
      · rw [if_neg h, add_zero, coeffs_cons_of_ne h]

theorem canonical_add (hp : Canonical p.terms) (hq : Canonical q.terms) (h : p.add? q = some r) :
    Canonical r.terms := by
  obtain ⟨ts, hts, rfl⟩ := Option.map_eq_some_iff.1 h
  exact canonical_addTerms hp hq.ordered hts

theorem total_add (h : p.add? q = some r) (m : Monomial) :
    total m r.terms = total m (p.terms ++ q.terms) := by
  obtain ⟨ts, hts, rfl⟩ := Option.map_eq_some_iff.1 h
  rw [total_addTerms hts, total, total, total, coeffs, coeffs, coeffs, List.filter_append,
    List.map_append, List.sum_append]

theorem isSome_add (hp : Canonical p.terms) (hq : Canonical q.terms) :
    (p.add? q).isSome ↔ ∀ t ∈ q.terms, Fits (total t.1 p.terms + t.2) := by
  rw [add?, Option.isSome_map, isSome_addTerms hp hq.ordered]
  constructor
  · rintro h ⟨m, c⟩ ht
    have hm := h m
    rw [hq.coeffs_of_mem ht] at hm
    exact hm.1
  · intro h m
    by_cases hm : ∃ t ∈ q.terms, t.1 = m
    · obtain ⟨⟨m, c⟩, ht, rfl⟩ := hm
      rw [hq.coeffs_of_mem ht]
      exact ⟨h _ ht, trivial⟩
    · rw [coeffs_eq_nil fun t ht hm' => hm ⟨t, ht, hm'⟩]
      trivial

/-! Multiples. -/

theorem scale?_eq_some_iff {k : Int} (hk : k ≠ 0) : p.scale? k = some r ↔
    (∀ t ∈ p.terms, Fits (t.2 * k)) ∧ r.terms = p.terms.map fun t => (t.1, t.2 * k) := by
  have hall : ∀ ts us : List (Monomial × Int),
      (ts.mapM fun t => (checked (t.2 * k)).map (t.1, ·)) = some us ↔
        (∀ t ∈ ts, Fits (t.2 * k)) ∧ us = ts.map fun t => (t.1, t.2 * k) := by
    intro ts
    induction ts with
    | nil => simp [eq_comm]
    | cons t ts ih =>
      intro us
      rw [List.mapM_cons, List.forall_mem_cons, List.map_cons]
      by_cases h : Fits (t.2 * k)
      · simp only [checked_of_fits h, Option.map_some, Option.bind_eq_bind, Option.bind_some,
          Option.bind_eq_some_iff, ih, Option.pure_def, Option.some.injEq, h, true_and]
        exact ⟨fun ⟨vs, ⟨hall, hvs⟩, hus⟩ => ⟨hall, hvs ▸ hus.symm⟩,
          fun ⟨hall, hus⟩ => ⟨_, ⟨hall, rfl⟩, hus.symm⟩⟩
      · simp [checked, h]
  rw [scale?, if_neg hk, Option.map_eq_some_iff]
  constructor
  · rintro ⟨us, hus, rfl⟩
    exact (hall _ _).1 hus
  · intro h
    exact ⟨r.terms, (hall _ _).2 h, rfl⟩

theorem isSome_scale {k : Int} (hk : k ≠ 0) :
    (p.scale? k).isSome ↔ ∀ t ∈ p.terms, Fits (t.2 * k) := by
  rw [Option.isSome_iff_exists]
  exact ⟨fun ⟨r, h⟩ => ((scale?_eq_some_iff hk).1 h).1,
    fun h => ⟨⟨p.terms.map fun t => (t.1, t.2 * k)⟩, (scale?_eq_some_iff hk).2 ⟨h, rfl⟩⟩⟩

theorem canonical_scale {k : Int} (hp : Canonical p.terms) (h : p.scale? k = some r) :
    Canonical r.terms := by
  by_cases hk : k = 0
  · rw [scale?, if_pos hk] at h
    obtain rfl := Option.some.inj h
    exact canonical_nil
  · rw [((scale?_eq_some_iff hk).1 h).2]
    refine ⟨List.pairwise_map.2 hp.increasing, List.forall_mem_map.2 hp.ordered,
      List.forall_mem_map.2 fun t ht => mul_ne_zero (hp.nonzero t ht) hk⟩

theorem canonical_neg (hp : Canonical p.terms) (h : p.neg? = some r) : Canonical r.terms :=
  canonical_scale hp h

end Poly

end LoopFusion
