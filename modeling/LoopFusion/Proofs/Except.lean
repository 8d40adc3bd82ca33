/-!
Computations that end with a result or with an error: when a sequence of them ends with a result.
-/

namespace LoopFusion

variable {ε α β : Type}

theorem bind_eq_ok {x : Except ε α} {g : α → Except ε β} {b : β} :
    (x >>= g) = .ok b ↔ ∃ a, x = .ok a ∧ g a = .ok b := by
  cases x <;> simp [bind, Except.bind]

theorem seq_eq_ok {x : Except ε Unit} {g : Unit → Except ε Unit} :
    (x >>= g) = .ok () ↔ x = .ok () ∧ g () = .ok () := by
  rcases x with _ | ⟨⟨⟩⟩ <;> simp [bind, Except.bind]

theorem forM_eq_ok (l : List α) (g : α → Except ε Unit) :
    l.forM g = .ok () ↔ ∀ x ∈ l, g x = .ok () := by
  induction l with
  | nil => simp [pure, Except.pure]
  | cons x l ih =>
    change (g x >>= fun _ => l.forM g) = .ok () ↔ _
    rw [seq_eq_ok, ih, List.forall_mem_cons]

theorem exists_eq_ok {x : Except ε α} (h : x.isOk) : ∃ a, x = .ok a := by
  cases x with
  | ok a => exact ⟨a, rfl⟩
  | error => cases h

theorem eq_ok_of_isOk {x : Except ε Unit} (h : x.isOk) : x = .ok () := by
  obtain ⟨⟨⟩, h⟩ := exists_eq_ok h
  exact h

end LoopFusion
