import LoopFusion.Memory.Dependence

/-!
The table of names only grows, so a symbol keeps its name, and a name its symbol.
-/

namespace LoopFusion

namespace SymbolTable

variable {t u w : SymbolTable} {n : String}

/-- The names of `t` come first in `u`. -/
instance : LE SymbolTable := ⟨fun t u => t.names <+: u.names⟩

theorem le_refl (t : SymbolTable) : t ≤ t := List.prefix_refl _

theorem le_trans (h : t ≤ u) (h' : u ≤ w) : t ≤ w := List.IsPrefix.trans h h'

theorem intern_le (t : SymbolTable) (n : String) : t ≤ (t.intern n).2 := by
  unfold intern
  split
  · exact le_refl t
  · exact List.prefix_append _ _

theorem name?_of_le {s : Symbol} (h : t ≤ u) (hs : t.name? s = some n) : u.name? s = some n := by
  obtain ⟨rest, hrest⟩ := h
  obtain ⟨hlt, -⟩ := List.getElem?_eq_some_iff.1 hs
  rw [name?, ← hrest, List.getElem?_append_left hlt]
  exact hs

theorem name?_intern (t : SymbolTable) (n : String) :
    (t.intern n).2.name? (t.intern n).1 = some n := by
  unfold intern
  split
  case h_1 s h =>
    obtain ⟨hlt, hs, -⟩ := List.idxOf?_eq_some_iff.1 h
    exact List.getElem?_eq_some_iff.2 ⟨hlt, hs⟩
  case h_2 => simp [name?]

theorem intern_of_le (h : (t.intern n).2 ≤ u) : u.intern n = ((t.intern n).1, u) := by
  have hfind : u.names.idxOf? n = some (t.intern n).1 := by
    have hlt : (t.intern n).1 < (t.intern n).2.names.length :=
      (List.getElem?_eq_some_iff.1 (name?_intern t n)).1
    have hname := name?_of_le h (name?_intern t n)
    obtain ⟨hlt', hname⟩ := List.getElem?_eq_some_iff.1 hname
    refine List.idxOf?_eq_some_iff.2 ⟨hlt', hname, fun j hj => ?_⟩
    obtain ⟨rest, hrest⟩ := le_trans (intern_le t n) h
    unfold intern at hj
    split at hj
    case h_1 s hs =>
      obtain ⟨hlen, -, hfirst⟩ := List.idxOf?_eq_some_iff.1 hs
      have := hfirst j hj
      simpa [← hrest, List.getElem_append_left (Nat.lt_trans hj hlen)] using this
    case h_2 hn =>
      have hnone := List.idxOf?_eq_none_iff.1 hn
      have hj : j < t.names.length := hj
      intro he
      refine hnone (List.mem_iff_getElem.2 ⟨j, hj, ?_⟩)
      rw [← he]
      simp [← hrest, List.getElem_append_left hj]
  rw [intern, hfind]

end SymbolTable

namespace Inquiry

variable {α β : Type} {q : Inquiry α} {g : α → Inquiry β}

/-- Every name that the question finds in the table stays there. -/
def Grows (q : Inquiry α) : Prop := ∀ s, s.symbols ≤ (q s).2.symbols

theorem grows_pure (a : α) : Grows (pure a) := fun _ => SymbolTable.le_refl _

theorem Grows.bind (hq : q.Grows) (hg : ∀ a, (g a).Grows) : (q >>= g).Grows := fun s =>
  SymbolTable.le_trans (hq s) (hg _ _)

theorem Grows.of_eq {s s' : Session} {a : α} (hq : q.Grows) (h : q s = (a, s')) :
    s.symbols ≤ s'.symbols := by
  have := hq s
  rwa [h] at this

theorem grows_remember (i : InstId) (scope : Option LoopId) (e : Evolution) :
    (remember i scope e).Grows := fun _ => SymbolTable.le_refl _

theorem remembered?_remember (i j : InstId) (scope scope' : Option LoopId) (e : Evolution)
    (s : Session) : (remember i scope e s).2.remembered? j scope' =
      if j = i ∧ scope' = scope then some e else s.remembered? j scope' := by
  change List.lookup (j, scope') (((i, scope), e) :: s.memo) = _
  rw [List.lookup_cons]
  split
  case h_1 h =>
    obtain ⟨hj, hscope⟩ := Prod.mk.inj (eq_of_beq h)
    rw [if_pos ⟨hj, hscope⟩]
  case h_2 h =>
    refine (if_neg ?_).symm
    rintro ⟨rfl, rfl⟩
    rw [beq_self_eq_true] at h
    cases h

theorem of_remembered?_remember {i j : InstId} {scope scope' : Option LoopId} {x y : Evolution}
    {s : Session} (h : (remember i scope x s).2.remembered? j scope' = some y) :
    j = i ∧ scope' = scope ∧ y = x ∨ s.remembered? j scope' = some y := by
  rw [remembered?_remember] at h
  split at h
  case isTrue hsame => exact .inl ⟨hsame.1, hsame.2, (Option.some.inj h).symm⟩
  case isFalse => exact .inr h

end Inquiry

namespace Describe

open Inquiry

theorem value_inst (f : Func) (t : LoopForest) (budget : Nat) (i : InstId)
    (scope : Option LoopId) (s : Session) : value f t (budget + 1) (.inst i) scope s =
      match s.remembered? i scope, f.inst? i with
      | some e, _ => (e, s)
      | none, none => (.unknown, s)
      | none, some entry =>
        (do
          let e ← inst f t (fun v => value f t budget v scope) scope i entry
          Inquiry.remember i scope e
          return e : Inquiry Evolution) s := by
  change (match s.remembered? i scope, f.inst? i with
    | some e, _ => pure e
    | none, none => pure .unknown
    | none, some entry => _ : Inquiry Evolution) s = _
  cases s.remembered? i scope <;> cases f.inst? i <;> rfl

end Describe

end LoopFusion
