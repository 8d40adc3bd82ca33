import Mathlib.Logic.Relation
import Mathlib.Tactic.ByContra
import Mathlib.Tactic.Push

/-!
Walks that stay among given nodes, and dominance: a node dominates another if no walk from the root
gets there without it.
-/

namespace LoopFusion.Flow

open Relation

variable {ν : Type} {E E' : ν → ν → Prop} {P Q : ν → Prop} {r a b c x y : ν}

/-- A walk along `E`, all of whose nodes satisfy `P`. -/
inductive Walk (E : ν → ν → Prop) (P : ν → Prop) : ν → ν → Prop
  | refl {a : ν} : P a → Walk E P a a
  | tail {a b c : ν} : Walk E P a b → E b c → P c → Walk E P a c

namespace Walk

theorem first (h : Walk E P a b) : P a := by
  induction h with
  | refl ha => exact ha
  | tail _ _ _ ih => exact ih

theorem last (h : Walk E P a b) : P b := by
  cases h with
  | refl ha => exact ha
  | tail _ _ hc => exact hc

theorem trans (h : Walk E P a b) (h' : Walk E P b c) : Walk E P a c := by
  induction h' with
  | refl => exact h
  | tail _ he hp ih => exact .tail ih he hp

theorem single (he : E a b) (ha : P a) (hb : P b) : Walk E P a b := .tail (.refl ha) he hb

theorem head (ha : P a) (he : E a b) (h : Walk E P b c) : Walk E P a c :=
  (single he ha h.first).trans h

/-- The nodes of a walk may be described by anything that its start has and its edges keep. -/
theorem imp (h : Walk E P a b) (ha : Q a) (hstep : ∀ x y, P x → Q x → E x y → P y → E' x y ∧ Q y) :
    Walk E' Q a b := by
  induction h with
  | refl => exact .refl ha
  | tail hw he hc ih =>
    have := hstep _ _ hw.last ih.last he hc
    exact .tail ih this.1 this.2

theorem mono (h : Walk E P a b) (hPQ : ∀ x, P x → Q x) : Walk E Q a b :=
  h.imp (hPQ _ h.first) fun _ y _ _ he hy => ⟨he, hPQ y hy⟩

theorem stays (h : Walk E P a b) (ha : Q a) (hstep : ∀ x y, Q x → E x y → P y → Q y) : Q b :=
  (h.imp ha fun x y _ hx he hy => ⟨he, hstep x y hx he hy⟩).last

theorem cases_head (h : Walk E P a b) : a = b ∨ ∃ c, E a c ∧ Walk E P c b := by
  induction h with
  | refl => exact .inl rfl
  | @tail b c _ he hc ih =>
    rcases ih with rfl | ⟨d, had, hd⟩
    · exact .inr ⟨c, he, .refl hc⟩
    · exact .inr ⟨d, had, .tail hd he hc⟩

theorem reach (h : Walk E P a b) : ReflTransGen E a b := by
  induction h with
  | refl => exact .refl
  | tail _ he _ ih => exact ih.tail he

theorem ofReach (h : ReflTransGen E a b) : Walk E (fun _ => True) a b := by
  induction h with
  | refl => exact .refl trivial
  | tail _ he ih => exact .tail ih he trivial

theorem reach_iff : Walk E (fun _ => True) a b ↔ ReflTransGen E a b := ⟨reach, ofReach⟩

/-- A walk either misses `x` or visits it, and after the last visit misses it. -/
theorem lastVisit (x : ν) (h : Walk E P a b) :
    Walk E (fun y => P y ∧ y ≠ x) a b ∨
      Walk E P a x ∧ (x = b ∨ ∃ y, E x y ∧ Walk E (fun z => P z ∧ z ≠ x) y b) := by
  induction h with
  | refl ha =>
    by_cases hx : a = x
    · exact .inr ⟨hx ▸ .refl ha, .inl hx.symm⟩
    · exact .inl (.refl ⟨ha, hx⟩)
  | @tail b c hw he hc ih =>
    by_cases hx : c = x
    · exact .inr ⟨hx ▸ .tail hw he hc, .inl hx.symm⟩
    · rcases ih with ih | ⟨hax, rfl | ⟨y, hy, hyb⟩⟩
      · exact .inl (.tail ih he ⟨hc, hx⟩)
      · exact .inr ⟨hax, .inr ⟨c, he, .refl ⟨hc, hx⟩⟩⟩
      · exact .inr ⟨hax, .inr ⟨y, hy, .tail hyb he ⟨hc, hx⟩⟩⟩

theorem firstVisit (x : ν) (h : Walk E P a b) :
    Walk E (fun y => P y ∧ y ≠ x) a b ∨
      (a = x ∨ ∃ y, Walk E (fun z => P z ∧ z ≠ x) a y ∧ E y x) ∧ Walk E P x b := by
  induction h with
  | refl ha =>
    by_cases hx : a = x
    · exact .inr ⟨.inl hx, hx ▸ .refl ha⟩
    · exact .inl (.refl ⟨ha, hx⟩)
  | @tail b c hw he hc ih =>
    rcases ih with ih | ⟨hax, hxb⟩
    · by_cases hx : c = x
      · exact .inr ⟨.inr ⟨b, ih, hx ▸ he⟩, hx ▸ .refl hc⟩
      · exact .inl (.tail ih he ⟨hc, hx⟩)
    · exact .inr ⟨hax, .tail hxb he hc⟩

theorem leave (h : Walk E P a b) (ha : Q a) (hb : ¬ Q b)
    (hstep : ∀ x y, Q x → E x y → ¬ Q y → y = c) : Walk E P c b := by
  induction h with
  | refl => exact absurd ha hb
  | @tail x y hw he hy ih =>
    by_cases hx : Q x
    · obtain rfl := hstep x y hx he hb
      exact .refl hy
    · exact .tail (ih hx) he hy

end Walk

/-- Every walk from the root `r` to `b` visits `a`, and there is one. -/
def Dom (E : ν → ν → Prop) (r a b : ν) : Prop := ReflTransGen E r b ∧ ¬ Walk E (· ≠ a) r b

namespace Dom

theorem of_reach (h : ReflTransGen E r a) : Dom E r a a := ⟨h, fun hw => hw.last rfl⟩

theorem root (h : ReflTransGen E r b) : Dom E r r b := ⟨h, fun hw => hw.first rfl⟩

theorem reach_left (h : Dom E r a b) : ReflTransGen E r a := by
  rcases (Walk.ofReach h.1).lastVisit a with hw | ⟨hw, -⟩
  · exact absurd (hw.mono fun _ hx => hx.2) h.2
  · exact hw.reach

/-- The dominator lies on a walk of which it is not the end. -/
theorem reach_between (h : Dom E r a b) : ReflTransGen E a b := by
  rcases (Walk.ofReach h.1).lastVisit a with hw | ⟨-, rfl | ⟨y, hy, hw⟩⟩
  · exact absurd (hw.mono fun _ hx => hx.2) h.2
  · exact .refl
  · exact .head hy hw.reach

theorem trans (h : Dom E r a b) (h' : Dom E r b c) : Dom E r a c := by
  refine ⟨h'.1, fun hw => ?_⟩
  rcases hw.lastVisit b with hw' | ⟨hw', -⟩
  · exact h'.2 (hw'.mono fun _ hx => hx.2)
  · exact h.2 hw'

/-- Both are on every walk to either, so the one met first is met without the other. -/
theorem antisymm (h : Dom E r a b) (h' : Dom E r b a) : a = b := by
  by_contra hne
  rcases (Walk.ofReach h.1).firstVisit a with hw | ⟨rfl | ⟨y, hw, he⟩, -⟩
  · exact h.2 (hw.mono fun _ hx => hx.2)
  · exact h'.2 (.refl hne)
  · have hya : Walk E (fun z => z ≠ a) r y := hw.mono fun _ hx => hx.2
    rcases hya.firstVisit b with hw' | ⟨rfl | ⟨z, hz, hzb⟩, -⟩
    · exact h'.2 (.tail (hw'.mono fun _ hx => hx.2) he hne)
    · exact h.2 (.refl (Ne.symm hne))
    · exact h.2 (.tail (hz.mono fun _ hx => hx.1) hzb (Ne.symm hne))

theorem total (h : Dom E r a c) (h' : Dom E r b c) : Dom E r a b ∨ Dom E r b a := by
  by_contra hn
  push Not at hn
  have hab : Walk E (· ≠ a) r b := by
    by_contra hw
    exact hn.1 ⟨h'.reach_left, hw⟩
  have hba : Walk E (· ≠ b) r a := by
    by_contra hw
    exact hn.2 ⟨h.reach_left, hw⟩
  by_cases hne : a = b
  · exact hab.last hne.symm
  rcases (Walk.ofReach h.1).lastVisit a with hw | ⟨-, rfl | ⟨y, hy, hw⟩⟩
  · exact h.2 (hw.mono fun _ hx => hx.2)
  · exact h'.2 hba
  · have hyc : Walk E (· ≠ a) y c := hw.mono fun _ hx => hx.2
    rcases hyc.lastVisit b with hw' | ⟨-, rfl | ⟨z, hz, hw'⟩⟩
    · exact h'.2 (hba.trans (.head (by simpa using hne) hy (hw'.mono fun _ hx => hx.2)))
    · exact h.2 hab
    · exact h.2 (hab.trans (.head hab.last hz (hw'.mono fun _ hx => hx.1)))

theorem eq_root (h : Dom E r a r) : a = r := by
  by_contra hne
  exact h.2 (.refl (Ne.symm hne))

theorem pred (h : Dom E r a b) (hne : a ≠ b) (hp : ReflTransGen E r x) (he : E x b) :
    Dom E r a x :=
  ⟨hp, fun hw => h.2 (.tail hw he hne.symm)⟩

theorem of_preds (hb : ReflTransGen E r b) (hne : b ≠ r)
    (h : ∀ x, ReflTransGen E r x → E x b → Dom E r a x) : Dom E r a b := by
  refine ⟨hb, fun hw => ?_⟩
  cases hw with
  | refl => exact hne rfl
  | tail hw he _ => exact (h _ hw.reach he).2 hw

theorem of_step (h : Dom E r a c) (hb : ReflTransGen E r b) (hw : Walk E (· ≠ a) b c) :
    Dom E r a b :=
  ⟨hb, fun hw' => h.2 (hw'.trans hw)⟩

end Dom

end LoopFusion.Flow
