import LoopFusion.Proofs.Symbolic.Parts
import LoopFusion.Proofs.Symbolic.Renamed

/-!
One function described with two tables of names. The answers are the same up to the numbers of the
names, if every multiplication of the function goes through in any order of the symbols or in none.
-/

namespace LoopFusion

open Inquiry

/-! Arithmetic on evolutions. -/

namespace Evolution

open LoopFusion.Poly (Congruence Renamed Canonical)

variable {R : Poly → Poly → Prop} {L : Type} {label label' : Symbol → L}
  {x x' y y' : Evolution} {p p' s s' d d' : Poly} {a a' b b' : Option Poly} {l : LoopId}

theorem Alike.ofInvariant (h : Option.Rel R a b) : (ofInvariant? a).Alike R (ofInvariant? b) := by
  cases h with
  | none => exact .unknown
  | some h => exact .invariant h

theorem Alike.recur (hR : Congruence R) (hs : R s s') (hd : R d d') (l : LoopId) :
    (Evolution.recur s d l).Alike R (Evolution.recur s' d' l) := by
  have hzero : ∀ p : Poly, p.isZero ↔ p = .const 0 := fun ⟨ts⟩ => by
    cases ts <;> simp [Poly.isZero, Poly.const, Poly.zero]
  have hstep : d.isZero ↔ d'.isZero := by rw [hzero, hzero, hR.eq_iff hd (hR.const 0)]
  unfold Evolution.recur
  split
  case isTrue h =>
    rw [if_pos (hstep.1 h)]
    exact .invariant hs
  case isFalse h =>
    rw [if_neg fun h' => h (hstep.2 h')]
    exact .recurrence l hs hd

theorem Alike.ofRecurrence (hR : Congruence R) (ha : Option.Rel R a a') (hb : Option.Rel R b b')
    (l : LoopId) : (ofRecurrence? a b l).Alike R (ofRecurrence? a' b' l) := by
  cases ha with
  | none => exact .unknown
  | some ha =>
    cases hb with
    | none => exact .unknown
    | some hb => exact .recur hR ha hb l

theorem Alike.add (hR : Congruence R) (hx : x.Alike R x') (hy : y.Alike R y') :
    (x.add y).Alike R (x'.add y') := by
  cases hx with
  | unknown => cases hy <;> exact .unknown
  | invariant ha =>
    cases hy with
    | unknown => exact .unknown
    | invariant hb => exact .ofInvariant (hR.add? ha hb)
    | recurrence l hs ht => exact .ofRecurrence hR (hR.add? hs ha) (.some ht) l
  | recurrence l hs ht =>
    cases hy with
    | unknown => exact .unknown
    | invariant hb => exact .ofRecurrence hR (hR.add? hs hb) (.some ht) l
    | recurrence l' hs' ht' =>
      rw [Evolution.add, Evolution.add]
      split
      · exact .ofRecurrence hR (hR.add? hs hs') (hR.add? ht ht') l
      · exact .unknown

theorem Alike.neg (hR : Congruence R) (hx : x.Alike R x') : x.neg.Alike R x'.neg := by
  cases hx with
  | unknown => exact .unknown
  | invariant ha => exact .ofInvariant (hR.neg? ha)
  | recurrence l hs ht => exact .ofRecurrence hR (hR.neg? hs) (hR.neg? ht) l

/-- The multiplications that the product takes go through in any order of the symbols or in none. -/
def AnyOrder : Evolution → Evolution → Prop
  | invariant a, invariant b => a.AnyOrder b
  | recurrence s t _, invariant b => s.AnyOrder b ∧ t.AnyOrder b
  | invariant a, recurrence s t _ => s.AnyOrder a ∧ t.AnyOrder a
  | _, _ => True

theorem Alike.mul [DecidableEq L] (hl : label.Injective) (hl' : label'.Injective)
    (hx : x.Alike (Renamed label label') x') (hy : y.Alike (Renamed label label') y')
    (h : x.AnyOrder y) (h' : x'.AnyOrder y') :
    (x.mul y).Alike (Renamed label label') (x'.mul y') := by
  have hR := Poly.congruence_renamed hl hl'
  cases hx with
  | unknown => cases hy <;> exact .unknown
  | invariant ha =>
    cases hy with
    | unknown => exact .unknown
    | invariant hb => exact .ofInvariant (ha.mul? hl hl' hb h h')
    | recurrence l hs ht =>
      exact .ofRecurrence hR (hs.mul? hl hl' ha h.1 h'.1) (ht.mul? hl hl' ha h.2 h'.2) l
  | recurrence l hs ht =>
    cases hy with
    | unknown => exact .unknown
    | invariant hb =>
      exact .ofRecurrence hR (hs.mul? hl hl' hb h.1 h'.1) (ht.mul? hl hl' hb h.2 h'.2) l
    | recurrence => exact .unknown

/-- The evolution is in canonical form. -/
def Canonical : Evolution → Prop
  | invariant p => Poly.Canonical p.terms
  | recurrence s d _ => Poly.Canonical s.terms ∧ Poly.Canonical d.terms
  | unknown => True

/-- Nothing is known, or the value stays the same and is one product of symbols. -/
inductive Simple : Evolution → Prop
  | invariant {p : Poly} : p.terms.length ≤ 1 → Simple (.invariant p)
  | unknown : Simple .unknown

theorem anyOrder_of_simple (hx : x.Canonical) (hy : y.Canonical) (h : x.Simple ∨ y.Simple) :
    x.AnyOrder y := by
  obtain h | h := h
  · cases h with
    | unknown => cases y <;> trivial
    | invariant hp =>
      cases y with
      | unknown => trivial
      | invariant q => exact Poly.anyOrder_of_single hx hy (.inl hp)
      | recurrence s d l =>
        exact ⟨Poly.anyOrder_of_single hy.1 hx (.inr hp), Poly.anyOrder_of_single hy.2 hx (.inr hp)⟩
  · cases h with
    | unknown => cases x <;> trivial
    | invariant hq =>
      cases x with
      | unknown => trivial
      | invariant p => exact Poly.anyOrder_of_single hx hy (.inr hq)
      | recurrence s d l =>
        exact ⟨Poly.anyOrder_of_single hx.1 hy (.inr hq), Poly.anyOrder_of_single hx.2 hy (.inr hq)⟩

end Evolution

/-! Descriptions. -/

namespace Describe

variable {f : Func} {e : BlockId} {σ T T' : SymbolTable} {scope : Option LoopId} {v : Value}
  {x x' : Evolution} {i : InstId}

theorem Gives.canonical (h : Gives f σ scope v x) : x.Canonical := by
  have hall := h.all (P := fun p => Poly.Canonical p.terms) ⟨fun c _ => Poly.canonical_const c,
    Poly.canonical_symbol, Poly.canonical_add, Poly.canonical_neg, fun _ => Poly.canonical_mul⟩
  cases x <;> exact hall

theorem Gives.simple (h : Gives f σ scope v x) (hv : v.inst? = none) : x.Simple := by
  cases h with
  | const c =>
    refine .invariant ?_
    rw [Poly.const]
    split <;> simp [Poly.zero]
  | unknown => exact .unknown
  | symbol => exact .invariant (Nat.le_refl 1)
  | binary => cases hv
  | gep => cases hv
  | phi => cases hv

end Describe

/-- Every multiplication of the function goes through in any order of the symbols or in none,
whatever is known of its factors. -/
def Func.OrderFree (f : Func) : Prop := ∀ σ scope i l r x y, f.op? i = some (.binary .mul l r) →
  Describe.Gives f σ scope l x → Describe.Gives f σ scope r y → x.AnyOrder y

/-- A factor of the operation, if it is a multiplication, is a constant or a parameter. -/
def Operation.hasPlainFactor : Operation → Bool
  | .binary .mul l r => l.inst?.isNone || r.inst?.isNone
  | _ => true

theorem Func.orderFree_of_plain {f : Func}
    (h : ∀ k (hk : k < f.insts.size), f.insts[k].op.hasPlainFactor) : f.OrderFree := by
  intro σ scope i l r x y hop hl hr
  rw [Func.op?, Option.map_eq_some_iff] at hop
  obtain ⟨entry, hi, hop⟩ := hop
  obtain ⟨hlt, rfl⟩ := Array.getElem?_eq_some_iff.1 hi
  have hplain := h i.index hlt
  rw [hop, Operation.hasPlainFactor, Bool.or_eq_true] at hplain
  refine Evolution.anyOrder_of_simple hl.canonical hr.canonical (hplain.imp ?_ ?_)
  · exact fun h => hl.simple (Option.isNone_iff_eq_none.1 h)
  · exact fun h => hr.simple (Option.isNone_iff_eq_none.1 h)

namespace Describe

variable {f : Func} {e : BlockId} {T T' : SymbolTable} {scope : Option LoopId} {v : Value}
  {x x' : Evolution} {i : InstId}

/-- Answers about one value, with the names in `T` and with those in `T'`, that differ in the numbers
of the names only. -/
structure Twins (f : Func) (T T' : SymbolTable) (scope : Option LoopId) (v : Value)
    (x x' : Evolution) : Prop where
  left : Gives f T scope v x
  right : Gives f T' scope v x'
  alike : x.Alike (Poly.Renamed T.label T'.label) x'

/-- The sessions remember corresponding answers. -/
def renamed (f : Func) (T T' : SymbolTable) : Accord where
  rel s s' := ∀ i scope, Option.Rel (Twins f T T' scope (.inst i)) (s.remembered? i scope)
    (s'.remembered? i scope)
  room t t' := t ≤ T ∧ t' ≤ T'
  room_of_le h h' hroom := ⟨SymbolTable.le_trans h hroom.1, SymbolTable.le_trans h' hroom.2⟩
  rel_of_eq := by
    rintro s s' r r' hrel - hm - hm' i scope
    rw [Session.remembered?, Session.remembered?, hm, hm']
    exact hrel i scope

theorem alongside_unknown_renamed (v : Value) : Alongside (renamed f T T')
    (fun p p' => ∃ n n', p = .symbol n ∧ p' = .symbol n' ∧
      T.name? n = some (f.symbolName v) ∧ T'.name? n' = some (f.symbolName v))
    (f.unknown v) (f.unknown v) := fun _ _ hrel hroom =>
  ⟨⟨_, _, rfl, rfl, SymbolTable.name?_of_le hroom.1 (SymbolTable.name?_intern _ _),
    SymbolTable.name?_of_le hroom.2 (SymbolTable.name?_intern _ _)⟩, hrel⟩

theorem renamed_unknown {n n' : Symbol} (hn : T.name? n = some (f.symbolName v))
    (hn' : T'.name? n' = some (f.symbolName v)) :
    Poly.Renamed T.label T'.label (.symbol n) (.symbol n') :=
  Poly.renamed_symbol ((SymbolTable.label_of_name? hn).trans (SymbolTable.label_of_name? hn').symm)

theorem recall_renamed : Recall (renamed f T T') (Twins f T T') where
  hit hrel i scope := hrel i scope
  remember := by
    intro i scope x x' hx s s' hrel _
    refine ⟨rfl, fun j scope' => ?_⟩
    rw [remembered?_remember, remembered?_remember]
    split
    case isTrue hsame =>
      obtain ⟨rfl, rfl⟩ := hsame
      exact .some hx
    case isFalse => exact hrel j scope'

/-- Descriptions are the same up to the numbers of the names. -/
theorem likeness_renamed (hw : f.WellFormed e) (hf : f.OrderFree) (hT : T.names.Nodup)
    (hT' : T'.names.Nodup) :
    Likeness f f.forest (renamed f T T') (Poly.Renamed T.label T'.label) (Twins f T T') := by
  have hl := SymbolTable.label_injective hT
  have hl' := SymbolTable.label_injective hT'
  have hR := Poly.congruence_renamed hl hl'
  refine ⟨fun h => h.alike, fun _ c => ⟨.const c, .const c, .invariant (hR.const _)⟩,
    fun _ v => ⟨.unknown v, .unknown v, .unknown⟩, fun {scope v} hv hbefore => ?symbol,
    fun {scope i op l r x x' y y'} hop hx hy => ?binary,
    fun hop hx hy => ⟨.gep hop hx.left hy.left, .gep hop hx.right hy.right,
      hx.alike.add hR hy.alike⟩, fun {scope i entry l iv p p'} hi hst hiv hphi hp => ?phi⟩
  case symbol =>
    refine (alongside_unknown_renamed v).bind_same (fun _ => grows_pure _) fun p p' hp => ?_
    obtain ⟨n, n', rfl, rfl, hn, hn'⟩ := hp
    exact alongside_pure ⟨gives_symbol hw hv hbefore hn, gives_symbol hw hv hbefore hn',
      .invariant (renamed_unknown hn hn')⟩
  case binary =>
    refine ⟨.binary hop hx.left hy.left, .binary hop hx.right hy.right, ?_⟩
    cases op with
    | add => exact hx.alike.add hR hy.alike
    | sub => exact hx.alike.add hR (hy.alike.neg hR)
    | mul =>
      exact hx.alike.mul hl hl' hy.alike (hf _ _ _ _ _ _ _ hop hx.left hy.left)
        (hf _ _ _ _ _ _ _ hop hx.right hy.right)
  case phi =>
    have hstart : Poly.Renamed T.label T'.label p p' := by
      cases hp.alike with
      | invariant h => exact h
    exact ⟨gives_phi hst hiv hphi hp.left, gives_phi hst hiv hphi hp.right,
      .recur hR hstart (hR.const _) _⟩

theorem value_renamed (hw : f.WellFormed e) (hf : f.OrderFree) (hT : T.names.Nodup)
    (hT' : T'.names.Nodup) (budget : Nat) (v : Value) (scope : Option LoopId) :
    Alongside (renamed f T T') (Twins f T T' scope v) (value f f.forest budget v scope)
      (value f f.forest budget v scope) :=
  alongside_value (likeness_renamed hw hf hT hT') recall_renamed budget v scope

end Describe

end LoopFusion
