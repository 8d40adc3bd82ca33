import LoopFusion.Proofs.Symbolic.Likeness

/-!
A question asked again. In a session that knows no other names than the first one came to know, and
in the same order, the second answer is the first, however many of these names are known already.
-/

namespace LoopFusion

open Inquiry

namespace SymbolTable

variable {t u w : SymbolTable} {n : String}

theorem eq_of_length_le (h : t ≤ u) (hlen : u.names.length ≤ t.names.length) : t = u := by
  obtain ⟨names⟩ := t
  obtain ⟨names'⟩ := u
  exact congrArg mk (h.eq_of_length_le hlen)

theorem le_antisymm (h : t ≤ u) (h' : u ≤ t) : t = u := eq_of_length_le h h'.length_le

theorem le_total_of_le (h : t ≤ w) (h' : u ≤ w) : t ≤ u ∨ u ≤ t :=
  List.prefix_or_prefix_of_prefix h h'

theorem length_intern_le (t : SymbolTable) (n : String) :
    (t.intern n).2.names.length ≤ t.names.length + 1 := by
  unfold intern
  split
  · exact Nat.le_succ _
  · simp

/-- A name gets the same symbol in every table between the first one and the last. -/
theorem intern_between (h : t ≤ u) (hu : u ≤ w) (ht : (t.intern n).2 ≤ w) :
    (u.intern n).1 = (t.intern n).1 ∧ (t.intern n).2 ≤ (u.intern n).2 ∧ (u.intern n).2 ≤ w := by
  by_cases hle : (t.intern n).2 ≤ u
  · rw [intern_of_le hle]
    exact ⟨rfl, hle, hu⟩
  · have hge : u ≤ (t.intern n).2 := (le_total_of_le hu ht).resolve_right hle
    have hlt : u.names.length < (t.intern n).2.names.length := by
      refine Nat.lt_of_not_le fun hlen => hle ?_
      rw [eq_of_length_le hge hlen]
      exact le_refl _
    have htu : t = u := eq_of_length_le h (by have := length_intern_le t n; omega)
    rw [← htu]
    exact ⟨rfl, le_refl _, ht⟩

end SymbolTable

/-- The sessions remember the same answers, and the second one knows more of the names that lead up
to `w`. -/
def Accord.replay (w : SymbolTable) : Accord where
  rel s s' := s.memo = s'.memo ∧ s.symbols ≤ s'.symbols ∧ s'.symbols ≤ w
  room t _ := t ≤ w
  room_of_le h _ hu := SymbolTable.le_trans h hu
  rel_of_eq := by
    rintro s s' r r' ⟨hmemo, hle, hw⟩ hsym hm hsym' hm'
    exact ⟨hm.trans (hmemo.trans hm'.symm), by rwa [hsym, hsym'], by rwa [hsym']⟩

/-- A session that knows names and nothing else. -/
def Session.naming (t : SymbolTable) : Session := ⟨t, [], []⟩

variable {f : Func} {t : LoopForest} {w : SymbolTable}

theorem alongside_unknown_replay (v : Value) :
    Alongside (.replay w) (· = ·) (f.unknown v) (f.unknown v) := by
  refine Alongside.bind_same (P := (· = ·)) ?_ (fun _ => grows_pure _) fun a b hab =>
    alongside_pure (congrArg Poly.symbol hab)
  intro s s' ⟨hmemo, hle, hw⟩ hroom
  obtain ⟨hsym, hle', hw'⟩ := SymbolTable.intern_between hle hw hroom
  exact ⟨hsym.symm, hmemo, hle', hw'⟩

/-- The same unknowns make for the same descriptions. -/
theorem Describe.likeness_eq {A : Accord}
    (h : ∀ v, Alongside A (· = ·) (f.unknown v) (f.unknown v)) :
    Likeness f t A (· = ·) fun _ _ => (· = ·) where
  alike := by rintro _ _ x _ rfl; exact .refl x
  const _ _ := rfl
  unknown _ _ := rfl
  symbol _ _ := (h _).bind_same (fun _ => grows_pure _) fun _ _ hab =>
    alongside_pure (congrArg Evolution.invariant hab)
  binary := by rintro _ _ _ _ _ _ _ _ _ _ rfl rfl; rfl
  gep := by rintro _ _ _ _ _ _ _ _ _ rfl rfl; rfl
  phi := by rintro _ _ _ _ _ _ _ _ _ _ _ ⟨⟩; rfl

theorem Describe.recall_replay : Recall (.replay w) fun _ _ => (· = ·) where
  hit h i scope := by
    rw [Session.remembered?, Session.remembered?, h.1]
    exact Poly.rel_rfl _
  remember := by
    rintro i scope x _ rfl s s' ⟨hmemo, hle, hw⟩ _
    exact ⟨rfl, congrArg (((i, scope), x) :: ·) hmemo, hle, hw⟩

theorem Describe.value_replay (budget : Nat) (v : Value) (scope : Option LoopId) :
    Alongside (.replay w) (· = ·) (value f t budget v scope) (value f t budget v scope) :=
  alongside_value (likeness_eq alongside_unknown_replay) recall_replay budget v scope

end LoopFusion
