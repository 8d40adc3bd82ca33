import LoopFusion.Proofs.Flow.Forest
import LoopFusion.Proofs.Symbolic.Replay

/-!
Answers that were found earlier. As long as no description goes deeper than the engine looks, what a
session remembers is what it would answer if it remembered nothing.
-/

namespace LoopFusion

open Inquiry

/-- The names of a session without its answers. -/
def Session.fresh (s : Session) : Session := { s with memo := [] }

namespace Describe

variable {f : Func} {t : LoopForest} {u w : SymbolTable} {scope : Option LoopId} {v : Value}
  {i : InstId} {x : Evolution} {s s' : Session} {budget budget' : Nat}

/-- No description looks through more instructions in a row than the engine does. -/
def Shallow (f : Func) (t : LoopForest) : Prop := ∀ scope, ∃ depth : InstId → Nat, ∀ i,
  depth i ≤ maxDepth ∧ ∀ j, Looks f t scope i (.inst j) → depth j < depth i

/-- With these names and no answers, `x` is the answer, and it needs no other names. -/
def Answers (f : Func) (t : LoopForest) (u : SymbolTable) (v : Value) (scope : Option LoopId)
    (x : Evolution) : Prop :=
  (value f t (maxDepth + 1) v scope (.naming u)).1 = x ∧
    (value f t (maxDepth + 1) v scope (.naming u)).2.symbols = u

/-- Every remembered answer would be found anew. -/
def Ready (f : Func) (t : LoopForest) (s : Session) : Prop :=
  ∀ i scope x, s.remembered? i scope = some x → Answers f t s.symbols (.inst i) scope x

/-- An answer stays one when its names become known, and when more names do. -/
theorem answers_of_le
    (h : (value f t (maxDepth + 1) v scope (.naming u)).2.symbols ≤ w) :
    Answers f t w v scope (value f t (maxDepth + 1) v scope (.naming u)).1 := by
  have hle := SymbolTable.le_trans (grows_value f t (maxDepth + 1) v scope (.naming u)) h
  obtain ⟨hx, -, hge, hw⟩ := value_replay (maxDepth + 1) v scope (.naming u) (.naming w)
    ⟨rfl, hle, SymbolTable.le_refl w⟩ h
  exact ⟨hx.symm, SymbolTable.le_antisymm hw (grows_value f t _ v scope (.naming w))⟩

theorem Answers.mono (h : Answers f t u v scope x) (hle : u ≤ w) : Answers f t w v scope x := by
  have hsame : (value f t (maxDepth + 1) v scope (.naming u)).2.symbols ≤ w := by rwa [h.2]
  have hw := answers_of_le hsame
  rwa [h.1] at hw

theorem ready_of_nil (h : s.memo = []) : Ready f t s := by
  intro i scope x hx
  rw [Session.remembered?, h] at hx
  cases hx

theorem Ready.named (h : Ready f t s) (hmemo : s'.memo = s.memo) (hle : s.symbols ≤ s'.symbols) :
    Ready f t s' := by
  intro i scope x hx
  rw [Session.remembered?, hmemo] at hx
  exact (h i scope x hx).mono hle

theorem Ready.remember (h : Ready f t s) (hx : Answers f t s.symbols (.inst i) scope x) :
    Ready f t (Inquiry.remember i scope x s).2 := by
  intro j scope' y hy
  obtain ⟨rfl, rfl, rfl⟩ | hy := of_remembered?_remember hy
  · exact hx
  · exact h j scope' y hy

/-- The sessions know the same names, and remember nothing that they could not find out. -/
def informed (f : Func) (t : LoopForest) : Accord where
  rel s s' := s.symbols = s'.symbols ∧ Ready f t s ∧ Ready f t s'
  room _ _ := True
  room_of_le _ _ _ := trivial
  rel_of_eq := by
    rintro s s' r r' ⟨hsym, hs, hs'⟩ h hm h' hm'
    exact ⟨h.trans (hsym.trans h'.symm), hs.named hm (h ▸ SymbolTable.le_refl _),
      hs'.named hm' (h' ▸ SymbolTable.le_refl _)⟩

theorem alongside_unknown_informed (v : Value) :
    Alongside (informed f t) (· = ·) (f.unknown v) (f.unknown v) := by
  rintro s s' ⟨hsym, hs, hs'⟩ -
  have hname : ∀ r : Session, f.unknown v r = (.symbol (r.symbols.intern (f.symbolName v)).1,
      { r with symbols := (r.symbols.intern (f.symbolName v)).2 }) := fun _ => rfl
  rw [hname, hname, hsym]
  exact ⟨rfl, rfl, hs.named rfl (hsym ▸ SymbolTable.intern_le _ _),
    hs'.named rfl (SymbolTable.intern_le _ _)⟩

/-- Whatever the session remembers, it answers and names what it would if it remembered nothing. -/
def Settles (f : Func) (t : LoopForest) (budget : Nat) (v : Value) (scope : Option LoopId) : Prop :=
  ∀ s, Ready f t s →
    (value f t budget v scope s).1 = (value f t (maxDepth + 1) v scope (.naming s.symbols)).1 ∧
    (value f t budget v scope s).2.symbols =
      (value f t (maxDepth + 1) v scope (.naming s.symbols)).2.symbols ∧
    Ready f t (value f t budget v scope s).2

theorem Settles.alongside (h : Settles f t budget v scope) (h' : Settles f t budget' v scope) :
    Alongside (informed f t) (· = ·) (value f t budget v scope) (value f t budget' v scope) := by
  rintro s s' ⟨hsym, hs, hs'⟩ -
  obtain ⟨hx, hnames, hready⟩ := h s hs
  obtain ⟨hx', hnames', hready'⟩ := h' s' hs'
  exact ⟨hx.trans (hsym ▸ hx'.symm), hnames.trans (hsym ▸ hnames'.symm), hready, hready'⟩

theorem settles_of_alongside
    (h : Alongside (informed f t) (· = ·) (value f t budget v scope)
      (value f t (maxDepth + 1) v scope)) : Settles f t budget v scope := fun s hs => by
  obtain ⟨hx, hnames, hready, -⟩ := h s (.naming s.symbols) ⟨rfl, hs, ready_of_nil rfl⟩ trivial
  exact ⟨hx, hnames, hready⟩

theorem settles_const (c : Int64) : Settles f t budget (.const c) scope := by
  refine settles_of_alongside ?_
  cases budget <;> exact alongside_pure rfl

theorem settles_param (k : Nat) : Settles f t budget (.param k) scope := by
  refine settles_of_alongside ?_
  have hparam : Alongside (informed f t) (· = ·)
      (do return Evolution.invariant (← f.unknown (.param k)))
      (do return Evolution.invariant (← f.unknown (.param k))) :=
    (alongside_unknown_informed _).bind_same (fun _ => grows_pure _) fun _ _ h =>
      alongside_pure (congrArg _ h)
  cases budget <;> exact hparam

theorem value_of_miss {entry : Inst} (budget : Nat) (hmiss : s.remembered? i scope = none)
    (hi : f.inst? i = some entry) : value f t (budget + 1) (.inst i) scope s =
      ((inst f t (fun v => value f t budget v scope) scope i entry s).1,
        (Inquiry.remember i scope
          (inst f t (fun v => value f t budget v scope) scope i entry s).1
          (inst f t (fun v => value f t budget v scope) scope i entry s).2).2) := by
  rw [value_inst, hmiss, hi]
  rfl

/-- An instruction is settled when what it looks at is, one step earlier. -/
theorem settles_inst (h : ∀ v, Looks f t scope i v → Settles f t budget v scope ∧
    Settles f t maxDepth v scope) : Settles f t (budget + 1) (.inst i) scope := by
  intro s hs
  cases hknown : s.remembered? i scope with
  | some x =>
    obtain ⟨hx, hnames⟩ := hs i scope x hknown
    rw [value_inst, hknown]
    exact ⟨hx.symm, hnames.symm, hs⟩
  | none =>
    cases hi : f.inst? i with
    | none =>
      rw [value_inst, hknown, hi, value_inst, hi]
      exact ⟨rfl, rfl, hs⟩
    | some entry =>
      have hgrow := fun budget v => grows_value f t budget v scope
      have hinst := alongside_inst (likeness_eq (t := t) alongside_unknown_informed)
        (hgrow budget) (hgrow maxDepth) hi fun v hv => (h v hv).1.alongside (h v hv).2
      obtain ⟨hx, hnames, hready, -⟩ :=
        hinst s (.naming s.symbols) ⟨rfl, hs, ready_of_nil rfl⟩ trivial
      have hmiss : (Session.naming s.symbols).remembered? i scope = none := rfl
      have hfresh := value_of_miss (t := t) maxDepth hmiss hi
      rw [value_of_miss budget hknown hi]
      refine ⟨by rw [hfresh]; exact hx, by rw [hfresh]; exact hnames, hready.remember ?_⟩
      have hanswers := answers_of_le (SymbolTable.le_refl
        (value f t (maxDepth + 1) (.inst i) scope (.naming s.symbols)).2.symbols)
      rw [hfresh] at hanswers
      rw [hx, hnames]
      exact hanswers

/-- With more steps than a description is deep, every value is settled. -/
theorem settles (hf : Shallow f t) (v : Value) (scope : Option LoopId) :
    Settles f t (maxDepth + 1) v scope := by
  obtain ⟨depth, hdepth⟩ := hf scope
  have hinst : ∀ k i budget, depth i = k → k < budget → Settles f t budget (.inst i) scope := by
    intro k
    induction k using Nat.strongRecOn with
    | ind k ih =>
      intro i budget hk hbudget
      obtain ⟨budget, rfl⟩ := Nat.exists_eq_succ_of_ne_zero (Nat.ne_of_gt (Nat.zero_lt_of_lt hbudget))
      refine settles_inst fun v hv => ?_
      cases v with
      | const c => exact ⟨settles_const c, settles_const c⟩
      | param k => exact ⟨settles_param k, settles_param k⟩
      | inst j =>
        have hlt := (hdepth i).2 j hv
        have hle := (hdepth i).1
        exact ⟨ih _ (hk ▸ hlt) j budget rfl (by omega), ih _ (hk ▸ hlt) j maxDepth rfl (by omega)⟩
  cases v with
  | const c => exact settles_const c
  | param k => exact settles_param k
  | inst i => exact hinst _ i _ rfl (Nat.lt_succ_of_le (hdepth i).1)

theorem shallow_of_ordered (hsize : f.insts.size ≤ maxDepth + 1)
    (hfolded : ∀ k (h : k < f.insts.size), ∀ v ∈ f.insts[k].op.folded,
      v.inst?.all (·.index < k) = true)
    (hstart : ∀ l ∈ f.forest.loops, ∀ iv, l.iv? = some iv →
      iv.start.inst?.all (·.index < iv.phi.index) = true) : Shallow f f.forest := by
  have hbefore : ∀ {v : Value} {j : InstId} {k : Nat}, v.inst?.all (·.index < k) = true →
      v = .inst j → j.index < k := by
    rintro _ j k h rfl
    simpa [Value.inst?] using h
  have hknown : ∀ {i entry}, f.inst? i = some entry → ∃ h : i.index < f.insts.size,
      f.insts[i.index] = entry := fun hi => Array.getElem?_eq_some_iff.1 hi
  refine fun scope => ⟨fun i => if i.index < f.insts.size then i.index else 0, fun i => ⟨?_, ?_⟩⟩
  · dsimp only
    split <;> omega
  · intro j hlooks
    have hlt : i.index < f.insts.size ∧ j.index < i.index := by
      generalize hv : Value.inst j = v at hlooks
      cases hlooks with
      | folded hi _ hmem =>
        obtain ⟨hlt, rfl⟩ := hknown hi
        exact ⟨hlt, hbefore (hfolded _ hlt v hmem) hv.symm⟩
      | start hi _ _ hiv hphi =>
        obtain ⟨l, hl, hiv⟩ := Option.bind_eq_some_iff.1 hiv
        subst hphi
        exact ⟨(hknown hi).1, hbefore (hstart l (LoopForest.mem_of_loop? hl).1 _ hiv) hv.symm⟩
    dsimp only
    rw [if_pos hlt.1, if_pos (Nat.lt_trans hlt.2 hlt.1)]
    exact hlt.2

end Describe

end LoopFusion
