import LoopFusion.Ir.Operation
import LoopFusion.Proofs.Flow.ExactDominance
import Mathlib.Data.PFun

/-!
Loops over tables, with no result if they never end or come to a place that a table does not have.
The depth-first search keeps its way back on a stack and marks a node when it is pushed; with rows
for all nodes it ends, and it leaves them in the same order as the search by recursion.
-/

namespace LoopFusion.Guarded

open LoopFusion.Flow

section Tables

variable {α : Type}

/-- The table with another entry at `i`, if it has one there. -/
def put (t : Array α) (i : Nat) (a : α) : Option (Array α) :=
  if i < t.size then some (t.setIfInBounds i a) else none

variable {t : Array α} {i j n : Nat} {a : α}

theorem put_eq_some (h : i < t.size) : put t i a = some (t.setIfInBounds i a) := if_pos h

theorem getElem?_setIfInBounds (h : i < t.size) :
    (t.setIfInBounds i a)[j]? = if j = i then some a else t[j]? := by
  rw [Array.getElem?_setIfInBounds]
  by_cases hij : j = i
  · subst j
    simp [h]
  · simp [hij, Ne.symm hij]

theorem of_drop_eq_cons {l l' : List α} (h : l.drop n = a :: l') :
    l[n]? = some a ∧ l.drop (n + 1) = l' := by
  constructor
  · rw [← List.head?_drop, h, List.head?_cons]
  · rw [← List.tail_drop, h, List.tail_cons]

def fill (t : Array α) (entries : List (BlockId × α)) : Option (Array α) :=
  entries.foldlM (fun t x => put t x.1.index x.2) t

theorem fill_spec (entries : List (BlockId × α)) (t : Array α)
    (h : ∀ x ∈ entries, x.1.index < t.size) :
    ∃ t', fill t entries = some t' ∧ t'.size = t.size ∧
      (∀ b : BlockId, (∀ x ∈ entries, x.1 ≠ b) → t'[b.index]? = t[b.index]?) ∧
      ((entries.map (·.1)).Nodup → ∀ x ∈ entries, t'[x.1.index]? = some x.2) := by
  induction entries generalizing t with
  | nil => exact ⟨t, rfl, rfl, fun _ _ => rfl, fun _ x hx => by simp at hx⟩
  | cons x entries ih =>
    rw [List.forall_mem_cons] at h
    obtain ⟨t', ht', hsize, hoff, hat⟩ := ih (t.setIfInBounds x.1.index x.2) (by simpa using h.2)
    rw [Array.size_setIfInBounds] at hsize
    refine ⟨t', ?_, hsize, fun b hb => ?_, fun hn => ?_⟩
    · rw [fill, List.foldlM_cons, put_eq_some h.1]
      exact ht'
    · rw [List.forall_mem_cons] at hb
      rw [hoff b hb.2, getElem?_setIfInBounds h.1, if_neg]
      intro hbx
      exact hb.1 (congrArg BlockId.mk hbx.symm)
    · rw [List.map_cons, List.nodup_cons] at hn
      rw [List.forall_mem_cons]
      refine ⟨?_, hat hn.2⟩
      rw [hoff x.1 fun y hy hyx => hn.1 (hyx ▸ List.mem_map_of_mem hy), getElem?_setIfInBounds h.1,
        if_pos rfl]

end Tables

section Loops

variable {σ α : Type} (step : σ → Option (α ⊕ σ))

def partialStep : σ →. α ⊕ σ := fun s => step s

open Classical in
/-- Take steps until one leaves a result. -/
noncomputable def loop (s : σ) : Option α := ((partialStep step).fix s).toOption

variable {step} {s s' : σ} {a : α}

theorem loop_next (h : step s = some (.inr s')) : loop step s = loop step s' := by
  classical
  have hmem : .inr s' ∈ partialStep step s := Part.mem_ofOption.2 h
  apply Option.ext
  intro a
  rw [loop, loop, ← Option.mem_def, ← Option.mem_def, Part.mem_toOption, Part.mem_toOption,
    PFun.fix_fwd_eq hmem]

theorem loop_done (h : step s = some (.inl a)) : loop step s = some a := by
  classical
  have hmem : .inl a ∈ partialStep step s := Part.mem_ofOption.2 h
  exact Part.mem_toOption.2 (PFun.fix_stop hmem)

/-- As many steps of a loop from `s`, none of them the last. -/
inductive Steps (step : σ → Option (α ⊕ σ)) (s : σ) : Nat → σ → Prop
  | zero : Steps step s 0 s
  | succ {n : Nat} {s' s'' : σ} :
    Steps step s n s' → step s' = some (.inr s'') → Steps step s (n + 1) s''

theorem Steps.head {n : Nat} {s'' : σ} (h : step s = some (.inr s')) (hn : Steps step s' n s'') :
    Steps step s (n + 1) s'' := by
  induction hn with
  | zero => exact .succ .zero h
  | succ _ hlast ih => exact .succ ih hlast

theorem loop_of_steps {n : Nat} (h : Steps step s n s') : loop step s = loop step s' := by
  induction h with
  | zero => rfl
  | succ _ hlast ih => exact ih.trans (loop_next hlast)

end Loops

/-- The marks, the nodes that are finished, and the way back, with the number of edges of each node
that are already taken. -/
structure Progress where
  marks : Array Bool
  order : List BlockId
  stack : List (BlockId × Nat)

/-- Take the next edge of the node on top of the stack. -/
def explore (succs : Array (List BlockId)) (s : Progress) : Option (List BlockId ⊕ Progress) :=
  match s.stack with
  | [] => some (.inl s.order)
  | (n, k) :: stack => do
    let row ← succs[n.index]?
    match row[k]? with
    | some m =>
      if ← s.marks[m.index]? then return .inr { s with stack := (n, k + 1) :: stack }
      else
        let marks ← put s.marks m.index true
        return .inr { s with marks, stack := (m, 0) :: (n, k + 1) :: stack }
    | none => return .inr { s with order := s.order ++ [n], stack }

noncomputable def search (succs : Array (List BlockId)) (marks : Array Bool)
    (order : List BlockId) (stack : List (BlockId × Nat)) : Option (List BlockId) :=
  loop (explore succs) ⟨marks, order, stack⟩

noncomputable def postorder (succs : Array (List BlockId)) (root : BlockId) :
    Option (List BlockId) := do
  let marks ← put (Array.replicate succs.size false) root.index true
  search succs marks [] [(root, 0)]

section Search

variable {succs : Array (List BlockId)} {marks : Array Bool} {order row ns : List BlockId}
  {stack : List (BlockId × Nat)} {n s root : BlockId} {k : Nat} {v v' : Visit BlockId}

theorem search_push (hrow : succs[n.index]? = some row) (hs : row[k]? = some s)
    (hm : marks[s.index]? = some false) : search succs marks order ((n, k) :: stack) =
      search succs (marks.setIfInBounds s.index true) order ((s, 0) :: (n, k + 1) :: stack) := by
  have hlt : s.index < marks.size := (Array.getElem?_eq_some_iff.1 hm).1
  apply loop_next
  simp [explore, hrow, hs, hm, put_eq_some hlt]

theorem search_skip (hrow : succs[n.index]? = some row) (hs : row[k]? = some s)
    (hm : marks[s.index]? = some true) : search succs marks order ((n, k) :: stack) =
      search succs marks order ((n, k + 1) :: stack) := by
  apply loop_next
  simp [explore, hrow, hs, hm]

theorem search_pop (hrow : succs[n.index]? = some row) (hk : row[k]? = none) :
    search succs marks order ((n, k) :: stack) = search succs marks (order ++ [n]) stack := by
  apply loop_next
  simp [explore, hrow, hk]

theorem search_nil : search succs marks order [] = some order := loop_done rfl

structure Marked (m : Nat) (marks : Array Bool) (seen : List BlockId) : Prop where
  size : marks.size = m
  mark : ∀ b : BlockId, b.index < m → marks[b.index]? = some (decide (b ∈ seen))

theorem Marked.start (m : Nat) : Marked m (Array.replicate m false) [] := by
  constructor
  · exact Array.size_replicate
  · intro b hb
    simp [hb]

theorem Marked.push {m : Nat} {seen : List BlockId} (h : Marked m marks seen) (hs : s.index < m) :
    Marked m (marks.setIfInBounds s.index true) (s :: seen) := by
  constructor
  · rw [Array.size_setIfInBounds, h.size]
  · intro b hb
    rw [getElem?_setIfInBounds (by rwa [h.size]), h.mark b hb]
    have hbs : b.index = s.index ↔ b = s := by
      cases b
      cases s
      simp
    by_cases he : b = s <;> simp [hbs, he]

theorem row_of_lt (h : n.index < succs.size) :
    ∃ row, succs[n.index]? = some row ∧ row.drop 0 = succs[n.index]?.getD [] := by
  have hrow : succs[n.index]? = some succs[n.index] := Array.getElem?_eq_getElem h
  exact ⟨_, hrow, by rw [hrow, Option.getD_some, List.drop_zero]⟩

section

variable (hrows : ∀ (i : Nat) (row : List BlockId), succs[i]? = some row →
  ∀ s ∈ row, s.index < succs.size)

include hrows

/-- Taking the edges of a node that are left leaves what the search from their ends leaves. -/
theorem search_explores {ns : List BlockId}
    (h : Explores (fun n => succs[n.index]?.getD []) v ns v')
    (hrow : succs[n.index]? = some row) (hns : row.drop k = ns)
    (hm : Marked succs.size marks v.seen) :
    ∃ marks', Marked succs.size marks' v'.seen ∧
      ∀ stack, search succs marks v.order.reverse ((n, k) :: stack) =
        search succs marks' (v'.order.reverse ++ [n]) stack := by
  -- by induction on the search that recurses; the rest of the stack is what it returns to
  induction h generalizing n row k marks with
  | done =>
    have hk : row[k]? = none := by rw [← List.head?_drop, hns, List.head?_nil]
    exact ⟨marks, hm, fun stack => search_pop hrow hk⟩
  | @skip v v' s ns hs _ ih =>
    obtain ⟨hk, hdrop⟩ := of_drop_eq_cons hns
    have hmark := hm.mark s (hrows _ _ hrow s (List.mem_of_getElem? hk))
    rw [decide_eq_true hs] at hmark
    obtain ⟨marks', hm', hstep⟩ := ih hrow hdrop hm
    refine ⟨marks', hm', fun stack => ?_⟩
    rw [search_skip hrow hk hmark, hstep]
  | @enter v v₁ v' s ns hs _ _ ih₁ ih₂ =>
    obtain ⟨hk, hdrop⟩ := of_drop_eq_cons hns
    have hlt := hrows _ _ hrow s (List.mem_of_getElem? hk)
    have hmark := hm.mark s hlt
    rw [decide_eq_false hs] at hmark
    obtain ⟨row', hrow', hnext⟩ := row_of_lt hlt
    obtain ⟨marks₁, hm₁, hstep₁⟩ := ih₁ hrow' hnext (hm.push hlt)
    obtain ⟨marks₂, hm₂, hstep₂⟩ := ih₂ hrow hdrop hm₁
    refine ⟨marks₂, hm₂, fun stack => ?_⟩
    rw [search_push hrow hk hmark, hstep₁, ← hstep₂, List.reverse_cons]

/-- The search finds its way through the tables and leaves the nodes latest first. -/
theorem postorder_spec (hroot : root.index < succs.size)
    (h : Explores (fun n => succs[n.index]?.getD []) ⟨[], []⟩ [root] v) :
    postorder succs root = some v.order.reverse := by
  cases h with
  | skip hs => cases hs
  | @enter _ v _ _ _ _ h hrest =>
    cases hrest
    obtain ⟨row, hrow, hnext⟩ := row_of_lt hroot
    obtain ⟨marks', -, hstep⟩ := search_explores hrows h hrow hnext
      ((Marked.start succs.size).push hroot)
    rw [postorder, put_eq_some (by simpa using hroot), Option.bind_eq_bind, Option.bind_some]
    rw [List.reverse_nil] at hstep
    rw [hstep, search_nil, List.reverse_cons]

end

end Search

end LoopFusion.Guarded
