import LoopFusion.Proofs.Fusion.FusedFlow
import LoopFusion.Proofs.Inquiry

/-!
Fusion keeps a function well formed: phis still name the predecessors of their block, and every
definition still dominates its uses.
-/

namespace LoopFusion

open Relation LoopFusion.Flow Inquiry

namespace FusionPlan

variable {p : FusionPlan} {f : Func} {e b q : BlockId} {i d : InstId} {k : Nat} {v : Value}

theorem renamed_second : p.renamed (.inst p.second.iv) = .inst p.first.iv := if_pos rfl

theorem renamed_of_ne (h : v ≠ .inst p.second.iv) : p.renamed v = v := if_neg h

namespace Clean

variable (hc : p.Clean f)

include hc

theorem mem_body_first : p.first.iv ∈ f.body p.first.header :=
  (List.takeWhile_sublist _).mem hc.first

theorem mem_body_second : p.second.iv ∈ f.body p.second.header := by
  refine (List.takeWhile_sublist f.isPhi).mem ?_
  rw [← Func.phis, hc.second]
  exact List.mem_singleton_self _

theorem hasResult_first : f.hasResult p.first.iv := by
  obtain ⟨incoming, hop⟩ := Func.exists_phi (List.mem_takeWhile_imp hc.first)
  rw [Func.hasResult_of_op? hop]
  rfl

/-- What is used in a block that stays is defined in one, or it is the second counter. -/
theorem not_retired_of_use (hw : f.WellFormed e) {op : Operation} {db : BlockId} {dk : Nat}
    (hb : b ∈ f.layout) (hr : b ∉ p.retired) (hi : i ∈ f.body b) (hop : f.op? i = some op)
    (hv : .inst d ∈ op.operands) (hu : f.Usable (.inst d)) (hne : d ≠ p.second.iv)
    (hd : f.placeOf? d = some (db, dk)) : db ∉ p.retired := by
  intro hdr
  refine (hc.unneeded db hdr d (Func.mem_of_placeOf? hd).2).2 hu.2 hne ?_
  rw [isUsedOutside, List.any_eq_true]
  refine ⟨i, List.mem_filter.2 ⟨List.mem_flatMap.2 ⟨b, hb, hi⟩, ?_⟩, ?_⟩
  · rw [Func.operands, hop, Option.elim_some, List.contains_iff_mem]
    exact hv
  · rw [hw.owner b hb i hi]
    simpa using hr

end Clean

section Values

variable (hw : f.WellFormed e) (hp : p.Fits f e) (hc : p.Clean f)

include hw hp

theorem placeOf?_fused {db : BlockId} {dk : Nat} (h : f.placeOf? d = some (db, dk))
    (hr : db ∉ p.retired) : (p.fused f).placeOf? d = some (db, dk) := by
  obtain ⟨ho, hl, hk⟩ := Func.placeOf?_eq_some.1 h
  refine Func.placeOf?_eq_some.2 ⟨?_, (mem_layout_fused hw hp).2 ⟨hl, hr⟩, ?_⟩
  · rw [owner_fused hw hp, ho]
  · rw [body_fused hw hp, hk]

include hc

theorem placeOf?_fused_first : ∃ ka, (p.fused f).placeOf? p.first.iv = some (p.first.header, ka) := by
  obtain ⟨ka, hka⟩ := hw.placeOf?_of_mem hp.first.exit_edge.1 hc.mem_body_first
  exact ⟨ka, placeOf?_fused hw hp hka (hp.not_retired_first hp.first.header_in)⟩

theorem usable_fused {op : Operation} (hb : b ∈ f.layout) (hr : b ∉ p.retired) (hi : i ∈ f.body b)
    (hop : f.op? i = some op) (hv : v ∈ op.operands) (hu : f.Usable v) :
    (p.fused f).Usable (p.renamed v) := by
  by_cases hvi : v = .inst p.second.iv
  · rw [hvi, renamed_second]
    obtain ⟨ka, hka⟩ := placeOf?_fused_first hw hp hc
    exact ⟨by rw [hka]; rfl, (hasResult_fused hw hp _).trans hc.hasResult_first⟩
  · rw [renamed_of_ne hvi]
    cases v with
    | const => trivial
    | param k => exact (congrArg (k < ·.length) (params_fused hw hp)).mpr hu
    | inst d =>
      obtain ⟨⟨db, dk⟩, hd⟩ := Option.isSome_iff_exists.1 hu.1
      have hdr := hc.not_retired_of_use hw hb hr hi hop hv hu (fun h => hvi (h ▸ rfl)) hd
      refine ⟨?_, (hasResult_fused hw hp d).trans hu.2⟩
      rw [placeOf?_fused hw hp hd hdr]
      rfl

theorem availableAt_fused {op : Operation} (hb : b ∈ f.layout) (hr : b ∉ p.retired)
    (hi : i ∈ f.body b) (hop : f.op? i = some op) (hv : v ∈ op.operands) (hu : f.Usable v)
    (ha : f.AvailableAt e b k v) : (p.fused f).AvailableAt e b k (p.renamed v) := by
  by_cases hvi : v = .inst p.second.iv
  · subst hvi
    rw [renamed_second]
    obtain ⟨ka, hka⟩ := placeOf?_fused_first hw hp hc
    obtain ⟨db, dk, hd, hcond⟩ := ha
    have hdb : p.second.header = db := hw.block_unique (Func.mem_of_placeOf? hd).1
      hp.second.exit_edge.1 (Func.mem_of_placeOf? hd).2 hc.mem_body_second
    subst db
    rw [if_neg fun h => hr (hp.mem_retired.2 (.inr (.inl h.symm)))] at hcond
    refine ⟨_, ka, hka, ?_⟩
    split
    case isTrue hba =>
      subst b
      exact absurd (hp.dom.antisymm (hcond hp.first.reach)) hp.header_ne
    case isFalse =>
      intro hl
      exact dom_first_header hw hp hl (hcond (leads_of_fused hw hp hl))
  · rw [renamed_of_ne hvi]
    cases v with
    | const => trivial
    | param k => trivial
    | inst d =>
      obtain ⟨db, dk, hd, hcond⟩ := ha
      have hdr := hc.not_retired_of_use hw hb hr hi hop hv hu (fun h => hvi (h ▸ rfl)) hd
      refine ⟨db, dk, placeOf?_fused hw hp hd hdr, ?_⟩
      split
      case isTrue h => rwa [if_pos h] at hcond
      case isFalse h =>
        rw [if_neg h] at hcond
        exact fun hl => dom_fused hw hp hdr hl (hcond (leads_of_fused hw hp hl))

section Incoming

variable {op : Operation} (hb : b ∈ f.layout) (hr : b ∉ p.retired) (hi : i ∈ f.body b)
  (hop : f.op? i = some op) (hv : v ∈ op.operands) (hu : f.Usable v)

include hb hr hi hop hv hu

/-- What is there at the end of `q` is there at the end of `q'` in the fused function. -/
theorem availableAfter_moved {q' : BlockId} (ha : f.AvailableAfter e q v)
    (hfirst : (p.fused f).Leads e q' → (f.Leads e q → Dom f.Edge e p.second.header q) →
      Dom (p.fused f).Edge e p.first.header q')
    (hother : ∀ d ∉ p.retired, (p.fused f).Leads e q' → (f.Leads e q → Dom f.Edge e d q) →
      Dom (p.fused f).Edge e d q') :
    (p.fused f).AvailableAfter e q' (p.renamed v) := by
  by_cases hvi : v = .inst p.second.iv
  · subst hvi
    rw [renamed_second]
    obtain ⟨ka, hka⟩ := placeOf?_fused_first hw hp hc
    obtain ⟨db, dk, hd, hdom⟩ := ha
    obtain rfl : p.second.header = db := hw.block_unique (Func.mem_of_placeOf? hd).1
      hp.second.exit_edge.1 (Func.mem_of_placeOf? hd).2 hc.mem_body_second
    exact ⟨_, ka, hka, fun hl => hfirst hl hdom⟩
  · rw [renamed_of_ne hvi]
    cases v with
    | const => trivial
    | param k => trivial
    | inst d =>
      obtain ⟨db, dk, hd, hdom⟩ := ha
      have hdr := hc.not_retired_of_use hw hb hr hi hop hv hu (fun h => hvi (h ▸ rfl)) hd
      exact ⟨db, dk, placeOf?_fused hw hp hd hdr, fun hl => hother db hdr hl hdom⟩

theorem availableAfter_fused (ha : f.AvailableAfter e q v) :
    (p.fused f).AvailableAfter e q (p.renamed v) :=
  availableAfter_moved hw hp hc hb hr hi hop hv hu ha
    (fun hl hdom => dom_first_header hw hp hl (hdom (leads_of_fused hw hp hl)))
    fun _ hd hl hdom => dom_fused hw hp hd hl (hdom (leads_of_fused hw hp hl))

/-- What the second header hands to its body comes from the tail of the first body instead. -/
theorem availableAfter_tail (ha : f.AvailableAfter e p.second.header v) :
    (p.fused f).AvailableAfter e p.first.bodyTail (p.renamed v) := by
  have htail := hp.first.tail_in.dom
  exact availableAfter_moved hw hp hc hb hr hi hop hv hu ha
    (fun hl _ => dom_fused hw hp (hp.not_retired_first hp.first.header_in) hl htail)
    fun _ hd hl hdom =>
      dom_fused hw hp hd hl ((dom_of_dom_second hp hd (hdom hp.second.reach)).trans htail)

end Incoming

end Values

section Verified

variable (hw : f.WellFormed e) (hp : p.Fits f e) (hc : p.Clean f)

include hw hp

theorem mem_layout_of_fused (hb : b ∈ (p.fused f).layout) : b ∈ f.layout ∧ b ≠ p.second.header := by
  obtain ⟨hl, hr⟩ := (mem_layout_fused hw hp).1 hb
  exact ⟨hl, fun h => hr (hp.mem_retired.2 (.inr (.inl h)))⟩

theorem op_of_fused {op : Operation} (hb : b ∈ (p.fused f).layout) (hi : i ∈ f.body b)
    (hop : (p.fused f).op? i = some op) : ∃ op', f.op? i = some op' ∧ p.fusedOp b op' = op := by
  obtain ⟨hl, hne⟩ := mem_layout_of_fused hw hp hb
  rw [op?_fused hw hp hl hne hi] at hop
  exact Option.map_eq_some_iff.1 hop

omit hw hp in
theorem retarget_spec (p : FusionPlan) (b c : BlockId) : p.retarget b c = c ∨
    p.retarget b c = p.second.exit ∨ p.retarget b c = p.second.bodyHead ∨
      p.retarget b c = p.first.latch := by
  unfold retarget replace
  split_ifs <;> dsimp only [id] <;> (try split_ifs) <;> simp

omit hw hp in
theorem relabel_spec (p : FusionPlan) (b c : BlockId) : p.relabel b c = c ∨
    p.relabel b c = p.first.bodyTail ∨ p.relabel b c = p.second.bodyTail := by
  unfold relabel replace
  split_ifs <;> dsimp only [id] <;> (try split_ifs) <;> simp

theorem references_fused {op : Operation} {t : BlockId} (hb : b ∈ f.layout) (hi : i ∈ f.body b)
    (hop : f.op? i = some op) (ht : t ∈ Func.Verify.references (p.fusedOp b op)) :
    t.index < f.blocks.size := by
  have hf := hw.inArena
  have href := hw.references b hb i hi op hop
  by_cases hterm : op.isTerminator
  · have htar : (op.mapOperands p.renamed).targets = op.targets := by cases op <;> rfl
    rw [fusedOp_of_terminator hterm, Func.references_of_terminator (by simpa using hterm),
      Operation.targets_mapTargets, htar, List.mem_map] at ht
    obtain ⟨c, hcm, rfl⟩ := ht
    rcases retarget_spec p b c with h | h | h | h <;> rw [h]
    · exact href c (by rwa [Func.references_of_terminator hterm])
    · exact hf.targets _ _ hp.second.exit_edge
    · exact hf.targets _ _ hp.second.bodyHead_edge
    · exact hf.targets _ _ hp.first.tail_edge
  · rw [fusedOp_of_not_terminator hterm] at ht
    cases op with
    | phi incoming =>
      simp only [Operation.mapOperands, Operation.mapIncoming, Func.Verify.references, List.map_map,
        List.mem_map] at ht
      obtain ⟨⟨c, v⟩, hcm, rfl⟩ := ht
      change (p.relabel b c).index < _
      rcases relabel_spec p b c with h | h | h <;> rw [h]
      · exact href c (List.mem_map_of_mem hcm)
      · exact hf.layout _ hp.first.tail_edge.1
      · exact hf.layout _ hp.second.tail_edge.1
    | _ => first
      | exact absurd rfl hterm
      | cases ht

theorem target_fused {a : BlockId} (h : (p.fused f).Edge a b) : (p.fused f).contains b := by
  rw [contains_fused hw hp]
  rcases (edge_fused_iff hw hp).1 h with ⟨-, rfl⟩ | ⟨-, rfl⟩ | ⟨-, rfl⟩ | ⟨-, rfl⟩ | ⟨he, -, hr, -⟩
  · exact ⟨hw.targets _ _ hp.second.exit_edge, hp.exit_not_retired⟩
  · exact ⟨hw.targets _ _ hp.second.bodyHead_edge, hp.not_retired_body hp.bodyHead_mem⟩
  · exact ⟨hw.targets _ _ hp.first.tail_edge, hp.not_retired_first hp.first.latch_in⟩
  · exact ⟨hw.targets _ _ hp.second.exit_edge, hp.exit_not_retired⟩
  · exact ⟨hw.targets _ _ he, hr⟩

theorem unentered_fused (a : BlockId) : ¬ (p.fused f).Edge a e := by
  intro h
  rcases (edge_fused_iff hw hp).1 h with ⟨-, rfl⟩ | ⟨-, rfl⟩ | ⟨-, rfl⟩ | ⟨-, rfl⟩ | ⟨he, -⟩
  · exact hw.unentered _ hp.second.exit_edge
  · exact hw.unentered _ hp.second.bodyHead_edge
  · exact hw.unentered _ hp.first.tail_edge
  · exact hw.unentered _ hp.second.exit_edge
  · exact hw.unentered _ he

omit hw in
theorem from_retired {c : BlockId} (he : f.Edge c b) (hb : b ≠ p.second.exit) (hr : b ∉ p.retired)
    (hc : c ∈ p.retired) : c = p.second.header ∧ b = p.second.bodyHead := by
  have hne : b ≠ p.second.header := fun h => hr (hp.mem_retired.2 (.inr (.inl h)))
  rcases hp.mem_retired.1 hc with rfl | rfl | rfl
  · exact absurd ((hp.second.leads b).1 he) hne
  · exact ⟨rfl, ((hp.second.branch b).1 he).resolve_right hb⟩
  · exact absurd ((hp.second.round b).1 he) hne

omit hw in
theorem not_edge_tail : ¬ f.Edge p.first.bodyTail p.second.bodyHead := fun he =>
  hp.first.bodyTail_ne (hp.first.leave _ _ hp.first.tail_in he
    fun hin => hp.apart _ hin hp.second.bodyHead_in).1

omit hw hp in
theorem relabel_of_ne {c : BlockId} (hb' : b ≠ p.first.latch) (hc : c ≠ p.second.header) :
    p.relabel b c = c := by
  rw [relabel, if_neg hb']
  split_ifs <;> simp [replace, hc]

theorem preds_fused (hb : b ≠ p.second.exit) (hb' : b ≠ p.first.latch) (hr : b ∉ p.retired) :
    (p.fused f).Edge q b ↔ ∃ c, f.Edge c b ∧ p.relabel b c = q := by
  have hiff : (p.fused f).Edge q b ↔
      q = p.first.bodyTail ∧ b = p.second.bodyHead ∨ f.Edge q b ∧ q ∉ p.retired := by
    rw [edge_fused_iff hw hp]
    simp [hb, hb', hr]
  rw [hiff]
  constructor
  · rintro (⟨rfl, rfl⟩ | ⟨he, hqr⟩)
    · exact ⟨_, hp.second.bodyHead_edge, by simp [relabel, replace]⟩
    · refine ⟨q, he, ?_⟩
      have hq : q ≠ p.second.header := fun h => hqr (hp.mem_retired.2 (.inr (.inl h)))
      exact relabel_of_ne hb' hq
  · rintro ⟨c, he, rfl⟩
    by_cases hcr : c ∈ p.retired
    · obtain ⟨rfl, rfl⟩ := from_retired hp he hb hr hcr
      exact .inl (by simp [relabel, replace])
    · have hc : c ≠ p.second.header := fun h => hcr (hp.mem_retired.2 (.inr (.inl h)))
      rw [relabel_of_ne hb' hc]
      exact .inr ⟨he, hcr⟩

omit hw in
theorem relabel_injOn (hb' : b ≠ p.first.latch) {c d : BlockId} (hc : f.Edge c b)
    (hd : f.Edge d b) (h : p.relabel b c = p.relabel b d) : c = d := by
  by_cases hb : b = p.second.bodyHead
  · subst b
    have hct : c ≠ p.first.bodyTail := fun h => not_edge_tail hp (h ▸ hc)
    have hdt : d ≠ p.first.bodyTail := fun h => not_edge_tail hp (h ▸ hd)
    simp only [relabel, replace, if_true] at h
    split_ifs at h <;> simp_all
  · simpa [relabel, hb, hb'] using h

include hc

/-- Each entry of a phi in a block that stays is there at the end of the block it is now for. -/
theorem incoming_fused {incoming : List (BlockId × Value)} {c : BlockId} {u : Value}
    (hb : b ∈ f.layout) (hr : b ∉ p.retired) (hbx : b ≠ p.second.exit) (hbl : b ≠ p.first.latch)
    (hi : i ∈ f.body b) (hop : f.op? i = some (.phi incoming)) (hcu : (c, u) ∈ incoming)
    (hedge : f.Edge c b) (husable : f.Usable u) (havail : f.AvailableAfter e c u) :
    (p.fused f).Usable (p.renamed u) ∧
      (p.fused f).AvailableAfter e (p.relabel b c) (p.renamed u) := by
  have hu : u ∈ (Operation.phi incoming).operands := List.mem_map_of_mem hcu
  refine ⟨usable_fused hw hp hc hb hr hi hop hu husable, ?_⟩
  by_cases hcb : c = p.second.header ∧ b = p.second.bodyHead
  · obtain ⟨rfl, rfl⟩ := hcb
    have hlabel : p.relabel p.second.bodyHead p.second.header = p.first.bodyTail := by
      simp [relabel, replace]
    rw [hlabel]
    exact availableAfter_tail hw hp hc hb hr hi hop hu husable havail
  · have hcr : c ∉ p.retired := fun h => hcb (from_retired hp hedge hbx hr h)
    rw [relabel_of_ne hbl fun h => hcr (hp.mem_retired.2 (.inr (.inl h)))]
    exact availableAfter_fused hw hp hc hb hr hi hop hu husable havail

theorem phis_fused {incoming : List (BlockId × Value)} (hb : b ∈ (p.fused f).layout)
    (hl : (p.fused f).Leads e b) (hi : i ∈ f.body b)
    (hop : (p.fused f).op? i = some (.phi incoming)) :
    (incoming.map (·.1)).Nodup ∧ (∀ q, q ∈ incoming.map (·.1) ↔ (p.fused f).Edge q b) ∧
      ∀ q v, (q, v) ∈ incoming → (p.fused f).Usable v ∧ (p.fused f).AvailableAfter e q v := by
  obtain ⟨hbl, hr⟩ := (mem_layout_fused hw hp).1 hb
  obtain ⟨op, hop', hphi⟩ := op_of_fused hw hp hb hi hop
  have hisPhi : f.isPhi i := by
    rw [Func.isPhi_of_op? hop', ← isPhi_fusedOp p b op, hphi]
    rfl
  obtain ⟨old, hold⟩ := Func.exists_phi hisPhi
  obtain rfl := Option.some.inj (hop'.symm.trans hold)
  obtain rfl : (old.map fun x => (p.relabel b x.1, p.renamed x.2)) = incoming := by
    rw [← Operation.phi.injEq, ← hphi]
    simp [fusedOp, Operation.mapOperands, Operation.mapTargets, Operation.mapIncoming,
      Function.comp_def]
  obtain ⟨hnd, hmem, hval⟩ := hw.phis b hbl (leads_of_fused hw hp hl) i hi old hop'
  have hbx : b ≠ p.second.exit := by
    rintro rfl
    have := (hw.mem_phis_iff hbl hbl hi).2 ⟨rfl, hisPhi⟩
    rw [hc.exit] at this
    cases this
  have hbl' : b ≠ p.first.latch := by
    rintro rfl
    exact hc.latch i hi hisPhi
  have hlabels : (old.map fun x => (p.relabel b x.1, p.renamed x.2)).map (·.1) =
      (old.map (·.1)).map (p.relabel b) := by
    simp [Function.comp_def]
  rw [hlabels]
  refine ⟨?_, fun q => ?_, ?_⟩
  · refine hnd.map_on fun c hcm d hdm h => ?_
    exact relabel_injOn hp hbl' ((hmem c).1 hcm) ((hmem d).1 hdm) h
  · rw [preds_fused hw hp hbx hbl' hr, List.mem_map]
    simp only [hmem]
  · intro q v hqv
    obtain ⟨⟨c, u⟩, hcu, hq⟩ := List.mem_map.1 hqv
    obtain ⟨rfl, rfl⟩ := Prod.mk.inj hq
    obtain ⟨husable, havail⟩ := hval c u hcu
    exact incoming_fused hw hp hc hbl hr hbx hbl' hi hop' hcu
      ((hmem c).1 (List.mem_map_of_mem hcu)) husable havail

theorem wellFormed_fused : (p.fused f).WellFormed e where
  entry := entry_fused hw hp
  bounded b hb := by
    rw [size_fused hw hp]
    exact hw.bounded b (mem_layout_of_fused hw hp hb).1
  live b hb := by
    obtain ⟨hl, hr⟩ := (mem_layout_fused hw hp).1 hb
    exact (contains_fused hw hp b).2 ⟨hw.live b hl, hr⟩
  nodup := nodup_layout_fused hw hp
  known b hb i hi := by
    rw [body_fused hw hp] at hi
    obtain ⟨hl, hne⟩ := mem_layout_of_fused hw hp hb
    obtain ⟨op, hop⟩ := hw.known b hl i hi
    exact ⟨p.fusedOp b op, by rw [op?_fused hw hp hl hne hi, hop, Option.map_some]⟩
  references b hb i hi op hop t ht := by
    rw [body_fused hw hp] at hi
    obtain ⟨op', hop', rfl⟩ := op_of_fused hw hp hb hi hop
    rw [size_fused hw hp]
    exact references_fused hw hp (mem_layout_of_fused hw hp hb).1 hi hop' ht
  shape b hb := by
    rw [Func.Shaped, body_fused hw hp, funext (isTerminator_fused hw hp),
      funext (isPhi_fused hw hp)]
    exact hw.shape b (mem_layout_of_fused hw hp hb).1
  targets a b h := target_fused hw hp h
  owner b hb i hi := by
    rw [owner_fused hw hp]
    rw [body_fused hw hp] at hi
    exact hw.owner b (mem_layout_of_fused hw hp hb).1 i hi
  nodupBody b hb := by
    rw [body_fused hw hp]
    exact hw.nodupBody b (mem_layout_of_fused hw hp hb).1
  unentered := unentered_fused hw hp
  phis b hb hl i hi incoming hop := by
    rw [body_fused hw hp] at hi
    exact phis_fused hw hp hc hb hl hi hop
  uses b hb k i hk op hop hphi v hv := by
    rw [body_fused hw hp] at hk
    have hi := List.mem_of_getElem? hk
    obtain ⟨hl, hr⟩ := (mem_layout_fused hw hp).1 hb
    obtain ⟨op', hop', rfl⟩ := op_of_fused hw hp hb hi hop
    rw [isPhi_fusedOp] at hphi
    rw [operands_fusedOp] at hv
    obtain ⟨u, hu, rfl⟩ := List.mem_map.1 hv
    obtain ⟨husable, havail⟩ := hw.uses b hl k i hk op' hop' hphi u hu
    exact ⟨usable_fused hw hp hc hl hr hi hop' hu husable,
      availableAt_fused hw hp hc hl hr hi hop' hu husable havail⟩

end Verified

/-! Carrying out a plan. -/

theorem applies_of_fits (hw : f.WellFormed e) (hp : p.Fits f e) : p.applies f := by
  have hsecond : ∀ x, f.InLoop e p.second.header x → f.contains x := by
    intro x hx
    obtain ⟨y, hy⟩ := hx.exists_edge
    exact hw.live x hy.1
  have hfirst : ∀ x, f.InLoop e p.first.header x → f.contains x := by
    intro x hx
    obtain ⟨y, hy⟩ := hx.exists_edge
    exact hw.live x hy.1
  rw [applies, Bool.and_eq_true]
  constructor
  · simp only [List.all_append, List.all_cons, List.all_nil, Bool.and_true, Bool.and_eq_true,
      List.all_eq_true]
    refine ⟨⟨⟨hfirst _ hp.first.header_in, hfirst _ hp.first.latch_in, hfirst _ hp.first.tail_in,
      hsecond _ hp.second.tail_in, hw.targets _ _ hp.second.exit_edge⟩, fun x hx => ?_⟩,
      fun x hx => hsecond x ((hp.secondBody x).1 hx).1⟩
    rcases hp.mem_retired.1 hx with rfl | rfl | rfl
    · exact hw.live _ hp.second.preheader_edge.1
    · exact hsecond _ hp.second.header_in
    · exact hsecond _ hp.second.latch_in
  · obtain ⟨op, hop, -⟩ := Func.mem_successors.1 hp.second.exit_edge.2
    obtain ⟨t, ht, -⟩ := Option.bind_eq_some_iff.1 hop
    rw [ht, Option.isSome_some]

theorem perm_layout_fused (hw : f.WellFormed e) (hp : p.Fits f e) :
    f.layout.Perm (p.retired ++ (p.fused f).layout) := by
  have hretired : p.retired.Nodup ∧ ∀ b ∈ p.retired, b ∈ f.layout := by
    have hheader : p.second.preheader ≠ p.second.header := fun he =>
      hp.second.preheader_out (he ▸ hp.second.header_in)
    have hlatch : p.second.preheader ≠ p.second.latch := fun he =>
      hp.second.preheader_out (he ▸ hp.second.latch_in)
    rw [hp.retired]
    exact ⟨by simp [hheader, hlatch, hp.second.latch_ne.symm],
      by simp [hp.second.preheader_edge.1, hp.second.exit_edge.1, hp.second.latch_edge.1]⟩
  refine (List.perm_ext_iff_of_nodup hw.nodup (List.nodup_append'.2
    ⟨hretired.1, nodup_layout_fused hw hp, fun b hb hb' =>
      ((mem_layout_fused hw hp).1 hb').2 hb⟩)).2 fun b => ?_
  rw [List.mem_append, mem_layout_fused hw hp]
  refine ⟨fun hb => ?_, fun hb => hb.elim (hretired.2 b) And.left⟩
  by_cases hr : b ∈ p.retired
  · exact .inl hr
  · exact .inr ⟨hb, hr⟩

theorem length_layout_fused (hw : f.WellFormed e) (hp : p.Fits f e) :
    (p.fused f).layout.length + 3 = f.layout.length := by
  rw [(perm_layout_fused hw hp).length_eq, List.length_append, hp.retired, Nat.add_comm]
  rfl

theorem fuse_ensures (hw : f.WellFormed e) (hp : p.Fits f e) :
    (p.fuse f).Ensures fun r => r = .ok (p.fused f) := by
  rw [fuse, if_pos (applies_of_fits hw hp)]
  exact ensures_bind fun _ => ensures_pure rfl

theorem fuseChecked_ensures (hw : f.WellFormed e) (hp : p.Fits f e) (hc : p.Clean f)
    (verify : Bool) : (p.fuseChecked f verify).Ensures fun r => r = .ok (p.fused f) := by
  refine (fuse_ensures hw hp).bind fun r hr => ?_
  subst hr
  have hv : (if verify then (p.fused f).verify else .ok ()) = .ok () := by
    rw [(wellFormed_fused hw hp hc).verify]
    split <;> rfl
  simp only [hv]
  exact ensures_bind fun _ => ensures_pure rfl

end FusionPlan

end LoopFusion
