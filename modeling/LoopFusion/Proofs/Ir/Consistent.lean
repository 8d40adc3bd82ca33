import LoopFusion.Proofs.Ir.Building

/-!
The arenas under any sequence of edits. Whether a block is live can be read off the layout or off
the block, and where an instruction belongs can be read off the lists of the blocks or off the
instruction; no edit brings the one out of step with the other.
-/

namespace LoopFusion

inductive Edit
  | addBlock (name : String)
  | appendInst (b : BlockId) (op : Operation) (name : Option String)
  | insertBeforeTerminator (b : BlockId) (op : Operation) (name : Option String)
  | setTerminator (b : BlockId) (op : Operation)
  | replaceSuccessor (b old new : BlockId)
  | replaceAllUses (old new : Value)
  | replacePhiIncomingBlock (b old new : BlockId)
  | removePhiIncoming (b pred : BlockId)
  | removeBlock (b : BlockId)
  | moveBlocksBefore (bs : List BlockId) (anchor : BlockId)

abbrev Handle := BlockId ⊕ InstId

namespace Edit

/-- The handle that an edit makes, if any, and the function afterwards. -/
def perform (f : Func) : Edit → Option Handle × Func
  | addBlock name => Prod.map (fun b => some (.inl b)) id (f.addBlock name)
  | appendInst b op name => Prod.map (fun i => some (.inr i)) id (f.appendInst b op name)
  | insertBeforeTerminator b op name =>
    Prod.map (fun i => some (.inr i)) id (f.insertBeforeTerminator b op name)
  | setTerminator b op => (none, (f.setTerminator b op).2)
  | replaceSuccessor b old new => (none, (f.replaceSuccessor b old new).2)
  | replaceAllUses old new => (none, (f.replaceAllUses old new).2)
  | replacePhiIncomingBlock b old new => (none, f.replacePhiIncomingBlock b old new)
  | removePhiIncoming b pred => (none, f.removePhiIncoming b pred)
  | removeBlock b => (none, f.removeBlock b)
  | moveBlocksBefore bs anchor => (none, f.moveBlocksBefore bs anchor)

/-- The block that is edited is in the arena; blocks that are moved are live and distinct. -/
def Fits (f : Func) : Edit → Prop
  | addBlock _ | replaceAllUses _ _ => True
  | appendInst b _ _ | insertBeforeTerminator b _ _ | setTerminator b _ | replaceSuccessor b _ _
  | replacePhiIncomingBlock b _ _ | removePhiIncoming b _ | removeBlock b =>
    b.index < f.blocks.size
  | moveBlocksBefore bs _ => bs.Nodup ∧ ∀ b ∈ bs, f.contains b

instance (f : Func) : (e : Edit) → Decidable (e.Fits f)
  | addBlock _ | replaceAllUses _ _ => inferInstanceAs (Decidable True)
  | appendInst b _ _ | insertBeforeTerminator b _ _ | setTerminator b _ | replaceSuccessor b _ _
  | replacePhiIncomingBlock b _ _ | removePhiIncoming b _ | removeBlock b =>
    inferInstanceAs (Decidable (b.index < f.blocks.size))
  | moveBlocksBefore bs _ => inferInstanceAs (Decidable (bs.Nodup ∧ ∀ b ∈ bs, f.contains b))

/-- Edits in a row, with the handles that they make. -/
def run (f : Func) : List Edit → List Handle × Func
  | [] => ([], f)
  | e :: es =>
    let (h, f) := e.perform f
    let (hs, f) := run f es
    (h.toList ++ hs, f)

/-- Each edit fits the function that the edits in front of it leave. -/
def AllFit (f : Func) : List Edit → Prop
  | [] => True
  | e :: es => e.Fits f ∧ AllFit (e.perform f).2 es

instance decidableAllFit (f : Func) : (es : List Edit) → Decidable (AllFit f es)
  | [] => inferInstanceAs (Decidable True)
  | e :: es =>
    have := decidableAllFit (e.perform f).2 es
    inferInstanceAs (Decidable (e.Fits f ∧ AllFit (e.perform f).2 es))

end Edit

namespace Func

variable {f f' f'' : Func} {b : BlockId} {i : InstId} {op : Operation} {n : String}

/-- The layout and the flags agree on the live blocks, and the lists of the blocks and the
instructions on who owns what. Retired blocks keep their lists. -/
structure Consistent (f : Func) : Prop where
  nodup : f.layout.Nodup
  live : ∀ b, b ∈ f.layout ↔ f.contains b
  owned : ∀ b i, i ∈ f.body b ↔ f.owner? i = some b
  once : ∀ b, (f.body b).Nodup

def Has (f : Func) : Handle → Prop
  | .inl b => b.index < f.blocks.size
  | .inr i => i.index < f.insts.size

/-- What `f` says of its handles is still so in `f'`, except that blocks may have been retired. -/
structure Outlives (f f' : Func) : Prop where
  has : ∀ x, f.Has x → f'.Has x
  blockName : ∀ b, b.index < f.blocks.size → f'.blockName b = f.blockName b
  owner : ∀ i, i.index < f.insts.size → f'.owner? i = f.owner? i
  label : ∀ i, i.index < f.insts.size → (f'.inst? i).map (·.name) = (f.inst? i).map (·.name)
  body : ∀ b, (f.body b).Sublist (f'.body b)
  retired : ∀ b, b.index < f.blocks.size → f'.contains b → f.contains b

theorem lt_of_contains (h : f.contains b) : b.index < f.blocks.size := by
  by_contra hn
  rw [contains, block?, Array.getElem?_eq_none (Nat.not_lt.1 hn)] at h
  cases h

namespace Outlives

theorem refl (f : Func) : Outlives f f :=
  ⟨fun _ => id, fun _ _ => rfl, fun _ _ => rfl, fun _ _ => rfl, fun _ => .refl _, fun _ _ => id⟩

theorem trans (h : Outlives f f') (h' : Outlives f' f'') : Outlives f f'' where
  has x hx := h'.has x (h.has x hx)
  blockName b hb := (h'.blockName b (h.has (.inl b) hb)).trans (h.blockName b hb)
  owner i hi := (h'.owner i (h.has (.inr i) hi)).trans (h.owner i hi)
  label i hi := (h'.label i (h.has (.inr i) hi)).trans (h.label i hi)
  body b := (h.body b).trans (h'.body b)
  retired b hb hc := h.retired b hb (h'.retired b (h.has (.inl b) hb) hc)

end Outlives

/-! New blocks. -/

theorem Consistent.addBlock (h : f.Consistent) : (f.addBlock n).2.Consistent where
  nodup := by
    have hnew : ⟨f.blocks.size⟩ ∉ f.layout := fun hm =>
      Nat.lt_irrefl _ (lt_of_contains ((h.live _).1 hm))
    exact h.nodup.append (List.nodup_singleton _) (List.disjoint_singleton.2 hnew)
  live b := by
    change b ∈ f.layout ++ [⟨f.blocks.size⟩] ↔ _
    rw [List.mem_append, List.mem_singleton, contains_addBlock, h.live]
  owned b i := by
    rw [body_addBlock]
    exact h.owned b i
  once b := by
    rw [body_addBlock]
    exact h.once b

theorem outlives_addBlock (f : Func) (n : String) : Outlives f (f.addBlock n).2 where
  has
    | .inl b, hb => by
      change b.index < (f.addBlock n).2.blocks.size
      rw [size_addBlock]
      exact Nat.lt_succ_of_lt hb
    | .inr _, hi => hi
  blockName b hb := by rw [Func.blockName, block?_addBlock hb, Func.blockName]
  owner _ _ := rfl
  label _ _ := rfl
  body b := by rw [body_addBlock]
  retired b hb hc := by rwa [contains, block?_addBlock hb, ← contains] at hc

/-! New instructions. -/

section AddInst

variable {m : Option String} {place : InstId → List InstId → List InstId}
  (hb : b.index < f.blocks.size) (hp : f.Places b place)

include hb hp

theorem Consistent.addInst (h : f.Consistent) : (f.addInst b op m place).2.Consistent where
  nodup := h.nodup
  live c := by
    rw [contains_addInst]
    exact h.live c
  owned := owned_addInst hb hp h.owned
  once c := by
    obtain ⟨l, r, hbody, hplace⟩ := hp ⟨f.insts.size⟩
    rw [body_addInst hb]
    split
    case isTrue hc =>
      subst c
      have hnew : ⟨f.insts.size⟩ ∉ l ++ r := fun hm =>
        Nat.lt_irrefl _ (lt_of_owner? ((h.owned b _).1 (hbody ▸ hm)))
      rw [hplace, List.nodup_middle, List.nodup_cons]
      exact ⟨hnew, hbody ▸ h.once b⟩
    case isFalse => exact h.once c

theorem outlives_addInst : Outlives f (f.addInst b op m place).2 where
  has
    | .inl c, hc => hc.trans_eq (Array.size_modify ..).symm
    | .inr i, hi => (Nat.lt_succ_of_lt hi).trans_eq (Array.size_push ..).symm
  blockName c _ := by
    rw [Func.blockName, block?_addInst, Func.blockName]
    split
    · cases f.block? c <;> rfl
    · rfl
  owner i hi := by
    rw [owner?_addInst, if_neg]
    rintro rfl
    exact Nat.lt_irrefl _ hi
  label i hi := by
    rw [inst?_addInst, if_neg]
    rintro rfl
    exact Nat.lt_irrefl _ hi
  body c := by
    obtain ⟨l, r, hbody, hplace⟩ := hp ⟨f.insts.size⟩
    rw [body_addInst hb]
    split
    case isTrue hc =>
      subst c
      rw [hplace, hbody]
      exact .append_left (List.sublist_cons_self _ _) _
    case isFalse => exact .refl _
  retired c _ hc := by rwa [contains_addInst] at hc

end AddInst

theorem exists_place_insertBeforeTerminator (f : Func) (b : BlockId) (op : Operation)
    (m : Option String) : ∃ place, f.Places b place ∧
      f.insertBeforeTerminator b op m = f.addInst b op m place := by
  rw [insertBeforeTerminator]
  split
  case h_1 t ht =>
    have hlast : (f.body b).getLast? = some t := (Option.filter_eq_some_iff.1 ht).1
    refine ⟨_, fun i => ⟨(f.body b).dropLast, [t], ?_, rfl⟩, rfl⟩
    exact (List.dropLast_append_getLast? t hlast).symm
  case h_2 => exact ⟨_, f.places_append b, rfl⟩

/-! Other operations. -/

section Reworked

variable (hr : Reworked f f')

include hr

theorem Consistent.reworked (h : f.Consistent) : f'.Consistent where
  nodup := hr.layout ▸ h.nodup
  live b := by
    rw [hr.layout, hr.contains]
    exact h.live b
  owned b i := by
    rw [hr.body, hr.owner]
    exact h.owned b i
  once b := by
    rw [hr.body]
    exact h.once b

theorem Reworked.outlives : Outlives f f' where
  has
    | .inl _, hb => by rwa [Has, hr.blocks]
    | .inr _, hi => by rwa [Has, hr.size]
  blockName b _ := by rw [Func.blockName, Func.blockName, block?, block?, hr.blocks]
  owner i _ := hr.owner i
  label i _ := hr.label i
  body b := by rw [hr.body]
  retired b _ hc := by rwa [hr.contains] at hc

end Reworked

theorem reworked_setTerminator (f : Func) (b : BlockId) (op : Operation) :
    Reworked f (f.setTerminator b op).2 := by
  rw [setTerminator]
  split
  case h_1 t _ => exact reworked_modifyOp f t fun _ => op
  case h_2 => exact .refl f

/-! The layout. -/

theorem Consistent.removeBlock (h : f.Consistent) (b : BlockId) :
    (f.removeBlock b).Consistent where
  nodup := h.nodup.filter _
  live c := by
    rw [contains_removeBlock, Bool.and_eq_true, ← h.live]
    exact List.mem_filter
  owned c i := by
    rw [body_removeBlock]
    exact h.owned c i
  once c := by
    rw [body_removeBlock]
    exact h.once c

theorem outlives_removeBlock (f : Func) (b : BlockId) : Outlives f (f.removeBlock b) where
  has
    | .inl _, hc => hc.trans_eq (Array.size_modify ..).symm
    | .inr _, hi => hi
  blockName c _ := by
    rw [Func.blockName, block?_removeBlock, Func.blockName]
    split
    · cases f.block? c <;> rfl
    · rfl
  owner _ _ := rfl
  label _ _ := rfl
  body c := by rw [body_removeBlock]
  retired c _ hc := by
    rw [contains_removeBlock, Bool.and_eq_true] at hc
    exact hc.1

theorem Consistent.moveBlocksBefore (h : f.Consistent) {bs : List BlockId} {anchor : BlockId}
    (hbs : bs.Nodup) (hlive : ∀ b ∈ bs, f.contains b) :
    (f.moveBlocksBefore bs anchor).Consistent where
  nodup := nodup_moveBlocksBefore f h.nodup hbs
  live b := (mem_moveBlocksBefore f fun c hc => (h.live c).2 (hlive c hc)).trans (h.live b)
  owned := h.owned
  once := h.once

theorem outlives_moveBlocksBefore (f : Func) (bs : List BlockId) (anchor : BlockId) :
    Outlives f (f.moveBlocksBefore bs anchor) :=
  ⟨fun | .inl _, h => h | .inr _, h => h, fun _ _ => rfl, fun _ _ => rfl, fun _ _ => rfl,
    fun _ => .refl _, fun _ _ h => h⟩

/-! What each edit does. -/

/-- On the way from `f` to `f'` the handles `hs` are made, and nothing that `f` has is lost. -/
structure Makes (f : Func) (hs : List Handle) (f' : Func) : Prop where
  consistent : f.Consistent → f'.Consistent
  outlives : Outlives f f'
  nodup : hs.Nodup
  mem_iff : ∀ x, x ∈ hs ↔ f'.Has x ∧ ¬ f.Has x

theorem Makes.nothing (hc : f.Consistent → f'.Consistent) (h : Outlives f f')
    (hb : f'.blocks.size = f.blocks.size) (hi : f'.insts.size = f.insts.size) :
    Makes f [] f' where
  consistent := hc
  outlives := h
  nodup := List.nodup_nil
  mem_iff x := by
    cases x <;> simp [Has, hb, hi]

theorem Makes.trans {hs hs' : List Handle} (h : Makes f hs f') (h' : Makes f' hs' f'') :
    Makes f (hs ++ hs') f'' where
  consistent := h'.consistent ∘ h.consistent
  outlives := h.outlives.trans h'.outlives
  nodup := by
    refine h.nodup.append h'.nodup fun x hx hx' => ?_
    exact ((h'.mem_iff x).1 hx').2 ((h.mem_iff x).1 hx).1
  mem_iff x := by
    have hkept := h.outlives.has x
    have hkept' := h'.outlives.has x
    rw [List.mem_append, h.mem_iff, h'.mem_iff]
    tauto

theorem Reworked.makes (h : Reworked f f') : Makes f [] f' :=
  .nothing (.reworked h) h.outlives (congrArg Array.size h.blocks) h.size

theorem makes_addInst {m : Option String} {place : InstId → List InstId → List InstId}
    (hb : b.index < f.blocks.size) (hp : f.Places b place) :
    Makes f [.inr ⟨f.insts.size⟩] (f.addInst b op m place).2 where
  consistent := .addInst hb hp
  outlives := outlives_addInst hb hp
  nodup := List.nodup_singleton _
  mem_iff
    | .inl c => by simp [Has, addInst, modifyBlock]
    | .inr ⟨i⟩ => by
      simp [Has, addInst, modifyBlock]
      omega

theorem makes_addBlock (f : Func) (n : String) :
    Makes f [.inl ⟨f.blocks.size⟩] (f.addBlock n).2 where
  consistent := .addBlock
  outlives := outlives_addBlock f n
  nodup := List.nodup_singleton _
  mem_iff
    | .inl ⟨b⟩ => by
      simp [Has, Func.addBlock]
      omega
    | .inr i => by simp [Has, Func.addBlock]

namespace Consistent

variable (h : f.Consistent)

include h

end Consistent

end Func

namespace Edit

open Func

variable {f : Func} {e : Edit} {es es' : List Edit}

theorem Fits.makes (he : e.Fits f) : Makes f (e.perform f).1.toList (e.perform f).2 := by
  cases e with
  | addBlock n => exact makes_addBlock f n
  | appendInst b op m => exact makes_addInst he (f.places_append b)
  | insertBeforeTerminator b op m =>
    obtain ⟨place, hp, heq⟩ := exists_place_insertBeforeTerminator f b op m
    rw [perform, heq]
    exact makes_addInst he hp
  | setTerminator b op => exact (reworked_setTerminator f b op).makes
  | replaceSuccessor b old new => exact (alike_replaceSuccessor f b old new).reworked.makes
  | replaceAllUses old new => exact (alike_replaceAllUses f old new).reworked.makes
  | replacePhiIncomingBlock b old new => exact (alike_modifyPhis f b _).reworked.makes
  | removePhiIncoming b pred => exact (alike_modifyPhis f b _).reworked.makes
  | removeBlock b =>
    exact .nothing (·.removeBlock b) (outlives_removeBlock f b) (Array.size_modify ..) rfl
  | moveBlocksBefore bs anchor =>
    exact .nothing (·.moveBlocksBefore he.1 he.2) (outlives_moveBlocksBefore f bs anchor) rfl rfl

theorem AllFit.makes (h : AllFit f es) : Makes f (run f es).1 (run f es).2 := by
  induction es generalizing f with
  | nil => exact .nothing id (.refl f) rfl rfl
  | cons e es ih => exact h.1.makes.trans (ih h.2)

theorem consistent_empty (name : String) (params : List Param) :
    (Func.empty name params).Consistent := by
  constructor
  · exact List.nodup_nil
  · intro b
    simp [Func.empty, Func.contains, block?]
  · intro b i
    simp [Func.empty, Func.body, block?, owner?, inst?]
  · intro b
    simp [Func.empty, Func.body, block?]

end Edit

end LoopFusion
