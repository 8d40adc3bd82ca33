import Mathlib.Algebra.BigOperators.Fin
import Mathlib.Algebra.Order.BigOperators.Group.Finset
import LoopFusion.Proofs.Flow.Counter
import LoopFusion.Proofs.Fusion.Checks
import LoopFusion.Proofs.Verified

/-!
The search for a value of the first loop that the second one reads. It follows operands through
definitions outside of both loops, with a list of those seen, and it has steps enough to come to its
end. So it finds a value if and only if there is one to be found.
-/

namespace LoopFusion

open Relation

/-- The instruction stands in a block of the loop. -/
def Func.Located (f : Func) (l : Loop) (d : InstId) : Prop := (f.owner? d).any l.contains

/-- The instruction stands in the function and has `d` as an operand. -/
def Func.Reads (f : Func) (i d : InstId) : Prop := (f.placeOf? i).isSome ∧ d ∈ f.uses i

namespace Checker

variable {f : Func} {e : BlockId} {a b : Loop} {c d : InstId} {seen stack all : List InstId}
  {fuel : Nat} {answer : Option InstId}

/-- An operand `d` of an instruction that is in neither loop. -/
def Passes (f : Func) (a b : Loop) (c d : InstId) : Prop :=
  ¬ f.Located a c ∧ ¬ f.Located b c ∧ d ∈ f.uses c

/-- The search from a stack, with nothing to bound its steps. -/
inductive Searches (f : Func) (a b : Loop) :
    List InstId → List InstId → Option InstId → Prop
  | done {seen : List InstId} : Searches f a b seen [] none
  | again {d : InstId} {seen stack : List InstId} {answer : Option InstId} :
    d ∈ seen → Searches f a b seen stack answer → Searches f a b seen (d :: stack) answer
  | found {d : InstId} {seen stack : List InstId} :
    d ∉ seen → f.Located a d → Searches f a b seen (d :: stack) (some d)
  | own {d : InstId} {seen stack : List InstId} {answer : Option InstId} :
    d ∉ seen → ¬ f.Located a d → f.Located b d → Searches f a b (d :: seen) stack answer →
      Searches f a b seen (d :: stack) answer
  | outside {d : InstId} {seen stack : List InstId} {answer : Option InstId} :
    d ∉ seen → ¬ f.Located a d → ¬ f.Located b d →
      Searches f a b (d :: seen) ((f.uses d).reverse ++ stack) answer →
      Searches f a b seen (d :: stack) answer

/-! The bound on the steps is never met. -/

/-- Operands of the instructions not seen yet. -/
def unseen (f : Func) (seen : List InstId) : Nat :=
  ∑ k ∈ Finset.range f.insts.size, if ⟨k⟩ ∈ seen then 0 else (f.operands ⟨k⟩).length

theorem unseen_cons (h : d ∉ seen) :
    unseen f (d :: seen) + (f.operands d).length ≤ unseen f seen := by
  by_cases hd : d.index < f.insts.size
  · have hm := Finset.mem_range.2 hd
    rw [unseen, unseen, ← Finset.sum_erase_add _ _ hm, ← Finset.sum_erase_add _ _ hm, if_neg h,
      if_pos (List.mem_cons_self ..), add_zero]
    refine Nat.add_le_add_right (Finset.sum_le_sum fun k _ => ?_) _
    by_cases hk : (⟨k⟩ : InstId) ∈ seen
    · rw [if_pos (List.mem_cons_of_mem _ hk), if_pos hk]
    · rw [if_neg hk]
      split <;> omega
  · have hnone : f.operands d = [] := by
      rw [Func.operands, Func.op?, Func.inst?, Array.getElem?_eq_none (by omega)]
      rfl
    rw [hnone, List.length_nil, add_zero]
    refine Finset.sum_le_sum fun k _ => ?_
    by_cases hk : (⟨k⟩ : InstId) ∈ seen
    · rw [if_pos (List.mem_cons_of_mem _ hk), if_pos hk]
    · rw [if_neg hk]
      split <;> omega

theorem length_uses_le : (f.uses d).length ≤ (f.operands d).length := by
  rw [Func.uses, Func.operands]
  cases f.op? d with
  | none => exact le_rfl
  | some op => exact List.length_filterMap_le _ _

theorem unseen_nil : unseen f [] = (f.insts.toList.map fun i => i.op.operands.length).sum := by
  rw [unseen, Finset.sum_range, ← Fin.sum_univ_fun_getElem]
  refine Finset.sum_congr rfl fun k _ => ?_
  rw [if_neg List.not_mem_nil, Func.operands, Func.op?, Func.inst?, Array.getElem?_eq_getElem k.2]
  rfl

theorem foldl_length (l : List Inst) (n : Nat) :
    l.foldl (fun n i => n + i.op.operands.length) n =
      n + (l.map fun i => i.op.operands.length).sum := by
  induction l generalizing n with
  | nil => rfl
  | cons i l ih => rw [List.foldl_cons, ih, List.map_cons, List.sum_cons, Nat.add_assoc]

/-- Each step takes one definition from the stack, and what it puts there was not counted yet. -/
theorem searches_trace (hfuel : stack.length + unseen f seen < fuel) :
    Searches f a b seen stack (trace f a b fuel seen stack) := by
  induction fuel generalizing seen stack with
  | zero => omega
  | succ fuel ih =>
    cases stack with
    | nil => exact .done
    | cons d stack =>
      rw [List.length_cons] at hfuel
      rw [trace]
      split
      case isTrue hd => exact .again (List.contains_iff_mem.1 hd) (ih (by omega))
      case isFalse hd =>
        have hd : d ∉ seen := fun hm => hd (List.contains_iff_mem.2 hm)
        have hunseen := unseen_cons (f := f) hd
        split
        case isTrue hda => exact .found hd hda
        case isFalse hda =>
          split
          case isTrue hdb => exact .own hd hda hdb (ih (by omega))
          case isFalse hdb =>
            have huses := length_uses_le (f := f) (d := d)
            refine .outside hd hda hdb (ih ?_)
            rw [List.length_append, List.length_reverse]
            omega

theorem searches_leak? (f : Func) (a b : Loop) : Searches f a b [] (reads f b) (leak? f a b) := by
  apply searches_trace
  rw [traceBound, foldl_length, unseen_nil]
  omega

/-! What a search finds, and what it leaves when it finds nothing. -/

namespace Searches

theorem sound (h : Searches f a b seen stack (some d)) :
    f.Located a d ∧ ∃ c ∈ stack, ReflTransGen (Passes f a b) c d := by
  generalize hd : some d = answer at h
  induction h with
  | done => cases hd
  | found _ hda =>
    obtain rfl := Option.some.inj hd
    exact ⟨hda, d, List.mem_cons_self .., .refl⟩
  | again _ _ ih | own _ _ _ _ ih =>
    obtain ⟨hda, c, hc, hcd⟩ := ih hd
    exact ⟨hda, c, List.mem_cons_of_mem _ hc, hcd⟩
  | @outside x _ _ _ _ hxa hxb _ ih =>
    obtain ⟨hda, c, hc, hcd⟩ := ih hd
    rcases List.mem_append.1 hc with hc | hc
    · exact ⟨hda, x, List.mem_cons_self .., .head ⟨hxa, hxb, List.mem_reverse.1 hc⟩ hcd⟩
    · exact ⟨hda, c, List.mem_cons_of_mem _ hc, hcd⟩

end Searches

/-- None of these is in the first loop, and the operands of those outside of both loops are among
them or are still to be looked at. -/
def Settled (f : Func) (a b : Loop) (seen stack : List InstId) : Prop :=
  ∀ c ∈ seen, ¬ f.Located a c ∧ (¬ f.Located b c → ∀ d ∈ f.uses c, d ∈ seen ∨ d ∈ stack)

namespace Settled

theorem nil (f : Func) (a b : Loop) (stack : List InstId) : Settled f a b [] stack :=
  fun _ hc => absurd hc List.not_mem_nil

theorem push {stack' : List InstId} (h : Settled f a b seen (d :: stack))
    (hd : ¬ f.Located a d) (hstack : stack ⊆ stack')
    (huses : ¬ f.Located b d → f.uses d ⊆ stack') : Settled f a b (d :: seen) stack' := by
  intro c hc
  rcases List.mem_cons.1 hc with rfl | hc
  · exact ⟨hd, fun hb x hx => .inr (huses hb hx)⟩
  · refine ⟨(h c hc).1, fun hb x hx => ?_⟩
    rcases (h c hc).2 hb x hx with hx | hx
    · exact .inl (List.mem_cons_of_mem _ hx)
    · rcases List.mem_cons.1 hx with rfl | hx
      · exact .inl (List.mem_cons_self ..)
      · exact .inr (hstack hx)

/-- The definitions looked at when nothing was found are closed under the operands followed. -/
theorem exists_closed (h : Settled f a b seen stack) (hsearch : Searches f a b seen stack none) :
    ∃ all, stack ⊆ all ∧ seen ⊆ all ∧ Settled f a b all [] := by
  generalize hanswer : none = answer at hsearch
  induction hsearch with
  | @done seen => exact ⟨seen, List.nil_subset _, List.Subset.refl _, h⟩
  | found => cases hanswer
  | @again x seen stack _ hx _ ih =>
    have hsettled : Settled f a b seen stack := by
      refine fun c hc => ⟨(h c hc).1, fun hb y hy => ?_⟩
      rcases (h c hc).2 hb y hy with hy | hy
      · exact .inl hy
      · rcases List.mem_cons.1 hy with rfl | hy
        · exact .inl hx
        · exact .inr hy
    obtain ⟨all, hstack, hseen, hall⟩ := ih hsettled hanswer
    exact ⟨all, List.cons_subset.2 ⟨hseen hx, hstack⟩, hseen, hall⟩
  | own _ hxa hxb _ ih =>
    obtain ⟨all, hstack, hseen, hall⟩ :=
      ih (h.push hxa (List.Subset.refl _) fun hb => absurd hxb hb) hanswer
    obtain ⟨hx, hseen⟩ := List.cons_subset.1 hseen
    exact ⟨all, List.cons_subset.2 ⟨hx, hstack⟩, hseen, hall⟩
  | outside _ hxa _ _ ih =>
    obtain ⟨all, hstack, hseen, hall⟩ := ih (h.push hxa (List.subset_append_right ..)
      fun _ _ hy => List.mem_append_left _ (List.mem_reverse.2 hy)) hanswer
    obtain ⟨hx, hseen⟩ := List.cons_subset.1 hseen
    exact ⟨all, List.cons_subset.2 ⟨hx, (List.append_subset.1 hstack).2⟩, hseen, hall⟩

theorem not_located (h : Settled f a b all []) (hc : c ∈ all)
    (hcd : ReflTransGen (Passes f a b) c d) : ¬ f.Located a d := by
  induction hcd using ReflTransGen.head_induction_on with
  | refl => exact (h d hc).1
  | head hpass _ ih =>
    obtain ⟨-, hb, hd⟩ := hpass
    rcases (h _ hc).2 hb _ hd with hd | hd
    · exact ih hd
    · cases hd

end Settled

theorem Searches.complete (h : Searches f a b [] stack none) (hc : c ∈ stack)
    (hcd : ReflTransGen (Passes f a b) c d) : ¬ f.Located a d := by
  obtain ⟨all, hstack, -, hall⟩ := Settled.exists_closed (Settled.nil f a b stack) h
  exact hall.not_located (hstack hc) hcd

theorem not_read_of_leak? (h : leak? f a b = none) (hd : d ∈ reads f b) :
    ¬ (f.owner? d).any a.contains :=
  (h ▸ searches_leak? f a b).complete hd .refl

theorem leak?_eq_none (h : ∀ d ∈ reads f b,
    (f.owner? d).any b.contains ∧ ¬ (f.owner? d).any a.contains) : leak? f a b = none := by
  cases hleak : leak? f a b with
  | none => rfl
  | some d =>
    obtain ⟨hda, c, hc, hcd⟩ := (hleak ▸ searches_leak? f a b).sound
    obtain ⟨hcb, hca⟩ := h c hc
    rcases hcd.cases_head with rfl | ⟨_, hpass, -⟩
    · exact absurd hda hca
    · exact absurd hcb hpass.2.1

end Checker

namespace Checker

end Checker

end LoopFusion
