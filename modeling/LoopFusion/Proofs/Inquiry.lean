import LoopFusion.Session

/-!
What holds of every answer to a question, whatever the session it is asked in.
-/

namespace LoopFusion.Inquiry

variable {α β : Type} {q : Inquiry α} {g : α → Inquiry β} {P : α → Prop} {Q : β → Prop} {a : α}
  {s s' : Session}

theorem bind_eq_iff {b : β} :
    (q >>= g) s = (b, s') ↔ ∃ a s₁, q s = (a, s₁) ∧ g a s₁ = (b, s') := by
  constructor
  · exact fun h => ⟨_, _, rfl, h⟩
  · rintro ⟨a, s₁, hq, hg⟩
    change g (q s).1 (q s).2 = _
    rw [hq]
    exact hg

/-- Every answer satisfies `P`. -/
def Ensures (q : Inquiry α) (P : α → Prop) : Prop := ∀ s, P (q s).1

theorem Ensures.trivial (q : Inquiry α) : q.Ensures fun _ => True := fun _ => True.intro

theorem ensures_pure (h : P a) : Ensures (pure a) P := fun _ => h

theorem Ensures.bind (hq : q.Ensures P) (hg : ∀ a, P a → (g a).Ensures Q) : (q >>= g).Ensures Q :=
  fun s => hg _ (hq s) (q s).2

theorem ensures_bind (hg : ∀ a, (g a).Ensures Q) : (q >>= g).Ensures Q :=
  (Ensures.trivial q).bind fun a _ => hg a

theorem Ensures.bind_congr {g' : α → Inquiry β} (hq : q.Ensures P)
    (hg : ∀ a, P a → g a = g' a) : q >>= g = q >>= g' :=
  funext fun s => congrFun (hg _ (hq s)) (q s).2

end LoopFusion.Inquiry
