import LoopFusion.Proofs.Flow.ExactDominance
import LoopFusion.Proofs.Verified

/-!
Where the operands of a verified function come from. On every path that control can take a value
is computed before it is used; and what the blocks of the layout name is in the layout again,
unless a block was left out of it or a phi stands where control never comes.
-/

namespace LoopFusion

open Relation LoopFusion.Flow

namespace Func

variable {f : Func} {e b p : BlockId} {d i : InstId} {k : Nat} {before : List BlockId}

theorem mem_arena_of_contains (h : f.contains b) : b ∈ f.arena := by
  rw [mem_arena]
  by_contra hn
  have hnone : f.block? b = none := Array.getElem?_eq_none (by omega)
  simp [contains, hnone] at h

theorem Usable.computed (h : f.Usable (.inst d)) :
    f.hasResult d ∧ ∃ c ∈ f.layout, d ∈ f.body c := by
  obtain ⟨⟨c, dk⟩, hplace⟩ := Option.isSome_iff_exists.1 h.1
  exact ⟨h.2, c, mem_of_placeOf? hplace⟩

theorem AvailableAt.on_path (h : f.AvailableAt e b k (.inst d))
    (hp : Path f.Edge e b (before ++ [b])) (hb : f.Leads e b) :
    d ∈ (f.body b).take k ∨ ∃ c ∈ before, d ∈ f.body c := by
  obtain ⟨db, dk, hplace, hdom⟩ := h
  split at hdom
  case isTrue hdb =>
    subst db
    obtain ⟨-, -, hidx⟩ := placeOf?_eq_some.1 hplace
    obtain ⟨hlt, hget, -⟩ := List.idxOf?_eq_some_iff.1 hidx
    exact .inl (List.mem_take_iff_getElem.2 ⟨dk, by omega, hget⟩)
  case isFalse hdb =>
    obtain ⟨-, -, hpath⟩ := dom_iff_path.1 (hdom hb)
    rcases List.mem_append.1 (hpath _ hp) with hmem | hmem
    · exact .inr ⟨db, hmem, (mem_of_placeOf? hplace).2⟩
    · exact absurd (List.mem_singleton.1 hmem) hdb

theorem AvailableAfter.on_path (h : f.AvailableAfter e p (.inst d)) (hp : Path f.Edge e p before)
    (hl : f.Leads e p) : ∃ c ∈ before, d ∈ f.body c := by
  obtain ⟨db, dk, hplace, hdom⟩ := h
  obtain ⟨-, -, hpath⟩ := dom_iff_path.1 (hdom hl)
  exact ⟨db, hpath _ hp, (mem_of_placeOf? hplace).2⟩

/-- On a path from the entry to `b` an operand has been computed by the time control comes to the
instruction that uses it, and a phi has one entry for the block in front of `b`. -/
theorem defined_before_use (hv : f.verify = .ok ()) (he : f.entry? = some e) (hb : b ∈ f.layout)
    (hp : Path f.Edge e b (before ++ [b])) :
    (∀ k i op d, (f.body b)[k]? = some i → f.op? i = some op → ¬ op.isPhi → .inst d ∈ op.operands →
      f.hasResult d ∧ (d ∈ (f.body b).take k ∨ ∃ c ∈ before, d ∈ f.body c)) ∧
    ∀ p, before.getLast? = some p → ∀ i ∈ f.body b, ∀ incoming, f.op? i = some (.phi incoming) →
      (incoming.map (·.1)).count p = 1 ∧ ∀ d, (p, .inst d) ∈ incoming →
        f.hasResult d ∧ ∃ c ∈ before, d ∈ f.body c := by
  obtain ⟨e', hw⟩ := wellFormed_of_verify hv
  obtain rfl := Option.some.inj (he.symm.trans hw.entry)
  have hl : f.Leads e b := (hp.walk (P := fun _ => True) fun _ _ => trivial).reach
  constructor
  · intro k i op d hk hop hphi hd
    obtain ⟨huse, havail⟩ := hw.uses b hb k i hk op hop hphi _ hd
    exact ⟨huse.computed.1, havail.on_path hp hl⟩
  · intro p hlast i hi incoming hop
    obtain ⟨hnodup, hedge, hvalues⟩ := hw.phis b hb hl i hi incoming hop
    rcases hp.of_snoc with ⟨rfl, -⟩ | ⟨q, hq, hqb⟩
    · cases hlast
    obtain rfl := Option.some.inj (hlast.symm.trans hq.getLast?)
    have hlp : f.Leads e p := (hq.walk (P := fun _ => True) fun _ _ => trivial).reach
    refine ⟨List.count_eq_one_of_mem hnodup ((hedge p).2 hqb), fun d hd => ?_⟩
    obtain ⟨huse, havail⟩ := hvalues p _ hd
    exact ⟨huse.computed.1, havail.on_path hq hlp⟩

/-- Once around the first loop and back to its header. -/
theorem path_twoLoops : Path twoLoops.Edge ⟨0⟩ ⟨1⟩ ([⟨0⟩, ⟨1⟩, ⟨2⟩, ⟨3⟩] ++ [⟨1⟩]) := by
  have hedge : ∀ a b, a ∈ twoLoops.layout ∧ b ∈ twoLoops.successors a → twoLoops.Edge a b :=
    fun _ _ h => h
  have h01 := hedge ⟨0⟩ ⟨1⟩ (by decide +kernel)
  have h12 := hedge ⟨1⟩ ⟨2⟩ (by decide +kernel)
  have h23 := hedge ⟨2⟩ ⟨3⟩ (by decide +kernel)
  have h31 := hedge ⟨3⟩ ⟨1⟩ (by decide +kernel)
  exact .cons h01 (.cons h12 (.cons h23 (.cons h31 .single)))

theorem defined_before_use_twoLoops : twoLoops.verify = .ok () ∧ twoLoops.entry? = some ⟨0⟩ ∧
    ⟨1⟩ ∈ twoLoops.layout ∧ Path twoLoops.Edge ⟨0⟩ ⟨1⟩ ([⟨0⟩, ⟨1⟩, ⟨2⟩, ⟨3⟩] ++ [⟨1⟩]) ∧
    ∀ i ∈ twoLoops.body ⟨1⟩, ∀ incoming, twoLoops.op? i = some (.phi incoming) →
      (incoming.map (·.1)).count ⟨3⟩ = 1 ∧ ∀ d, (⟨3⟩, .inst d) ∈ incoming →
        twoLoops.hasResult d ∧ ∃ c ∈ [⟨0⟩, ⟨1⟩, ⟨2⟩, ⟨3⟩], d ∈ twoLoops.body c := by
  have he : twoLoops.entry? = some ⟨0⟩ := by decide +kernel
  have hb : ⟨1⟩ ∈ twoLoops.layout := by decide +kernel
  have h := defined_before_use verify_twoLoops he hb path_twoLoops
  exact ⟨verify_twoLoops, he, hb, path_twoLoops, h.2 ⟨3⟩ rfl⟩

/-- Nothing that a block of the layout names is outside the layout. -/
structure Closed (f : Func) : Prop where
  targets : ∀ b ∈ f.layout, ∀ t ∈ f.successors b, t ∈ f.layout
  operands : ∀ b ∈ f.layout, ∀ i ∈ f.body b, ∀ d, .inst d ∈ f.operands i →
    f.hasResult d ∧ ∃ c ∈ f.layout, d ∈ f.body c

/-- A verified function is closed if no block was left out of the layout without being detached
and control comes to every phi. -/
theorem closed_of_verify (hv : f.verify = .ok ()) (he : f.entry? = some e)
    (hlive : ∀ b, f.contains b → b ∈ f.layout)
    (hphi : ∀ b ∈ f.layout, ∀ i ∈ f.body b, f.isPhi i → f.Leads e b) : f.Closed := by
  obtain ⟨e', hw⟩ := wellFormed_of_verify hv
  obtain rfl := Option.some.inj (he.symm.trans hw.entry)
  constructor
  · intro b hb t ht
    exact hlive t (hw.targets b t ⟨hb, ht⟩)
  · intro b hb i hi d hd
    obtain ⟨op, hop⟩ := hw.known b hb i hi
    have hd : .inst d ∈ op.operands := by simpa [operands, hop] using hd
    by_cases hi' : op.isPhi
    · have hl : f.Leads e b := hphi b hb i hi (by simpa [isPhi, hop] using hi')
      cases op with
      | phi incoming =>
        obtain ⟨-, -, hvalues⟩ := hw.phis b hb hl i hi incoming hop
        obtain ⟨⟨p, v⟩, hpv, rfl⟩ := List.mem_map.1 hd
        exact (hvalues p _ hpv).1.computed
      | _ => cases hi'
    · obtain ⟨k, hk⟩ := List.mem_iff_getElem?.1 hi
      exact (hw.uses b hb k i hk op hop hi' _ hd).1.computed

theorem closed_of_verify_twoLoops : twoLoops.verify = .ok () ∧ twoLoops.entry? = some ⟨0⟩ ∧
    (∀ b, twoLoops.contains b → b ∈ twoLoops.layout) ∧
    (∀ b ∈ twoLoops.layout, ∀ i ∈ twoLoops.body b, twoLoops.isPhi i → twoLoops.Leads ⟨0⟩ b) ∧
    twoLoops.Closed := by
  obtain ⟨e, hw⟩ := wellFormed_of_verify verify_twoLoops
  have he : twoLoops.entry? = some ⟨0⟩ := by decide +kernel
  have hlive : ∀ b, twoLoops.contains b → b ∈ twoLoops.layout := by
    intro b hb
    have hall : ∀ b ∈ twoLoops.arena, b ∈ twoLoops.layout := by decide +kernel
    exact hall b (mem_arena_of_contains hb)
  have hphi : ∀ b ∈ twoLoops.layout, ∀ i ∈ twoLoops.body b, twoLoops.isPhi i →
      twoLoops.Leads ⟨0⟩ b := by
    intro b hb _ _ _
    have hall : ∀ b ∈ twoLoops.layout, (Cfg.ofFunc twoLoops).reachable b := by decide +kernel
    exact (Cfg.reachable_iff hw.inArena he).1 (hall b hb)
  exact ⟨verify_twoLoops, he, hlive, hphi, closed_of_verify verify_twoLoops he hlive hphi⟩

/-- A branch to a block that is not detached and yet not in the layout. -/
def unlisted : Func where
  name := "f"
  params := []
  blocks := #[⟨"entry", [⟨0⟩], false⟩, ⟨"ghost", [], false⟩]
  insts := #[⟨.br ⟨1⟩, ⟨0⟩, none⟩]
  layout := [⟨0⟩]

theorem not_closed_unlisted : unlisted.verify = .ok () ∧ ¬ unlisted.Closed := by
  constructor
  · exact eq_ok_of_isOk (by decide +kernel)
  · intro h
    have hghost : (⟨1⟩ : BlockId) ∈ unlisted.layout :=
      h.targets ⟨0⟩ (by decide) ⟨1⟩ (by decide +kernel)
    exact absurd hghost (by decide)

/-- A phi that control never comes to, and no instruction behind its operand. -/
def danglingPhi : Func where
  name := "f"
  params := []
  blocks := #[⟨"entry", [⟨0⟩], false⟩, ⟨"dead", [⟨1⟩, ⟨2⟩], false⟩]
  insts := #[⟨.ret none, ⟨0⟩, none⟩, ⟨.phi [(⟨1⟩, .inst ⟨9⟩)], ⟨1⟩, none⟩, ⟨.br ⟨1⟩, ⟨1⟩, none⟩]
  layout := [⟨0⟩, ⟨1⟩]

theorem not_closed_danglingPhi : danglingPhi.verify = .ok () ∧ ¬ danglingPhi.Closed := by
  constructor
  · exact eq_ok_of_isOk (by decide +kernel)
  · intro h
    have hnine : danglingPhi.hasResult ⟨9⟩ :=
      (h.operands ⟨1⟩ (by decide) ⟨1⟩ (by decide) ⟨9⟩ (by decide +kernel)).1
    exact absurd hnine (by decide +kernel)

end Func

end LoopFusion
