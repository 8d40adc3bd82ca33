import LoopFusion.Proofs.Fusion.FusedVerified

/-!
The natural loops of the fused function. No loop is lost but the second one, none is new, and only
the first changes: it takes in the body of the second.
-/

namespace LoopFusion

open Relation LoopFusion.Flow

namespace FusionPlan

variable {p : FusionPlan} {f : Func} {e h l x y z : BlockId}

/-- One of the two loops holds the block, or it lies between them. -/
def Inside (p : FusionPlan) (f : Func) (e x : BlockId) : Prop :=
  f.InLoop e p.first.header x ∨ x = p.second.preheader ∨ f.InLoop e p.second.header x

/-- The blocks of the fused loop. -/
def Merged (p : FusionPlan) (f : Func) (e x : BlockId) : Prop :=
  f.InLoop e p.first.header x ∨ x ∈ p.secondBody

namespace Fits

variable (hp : p.Fits f e)

include hp

theorem dom_preheader : Dom f.Edge e p.first.header p.second.preheader :=
  hp.dom.pred hp.header_ne hp.preheader_reach hp.second.preheader_edge

theorem dom_of_inside (hx : p.Inside f e x) : Dom f.Edge e p.first.header x := by
  rcases hx with hx | rfl | hx
  · exact hx.dom
  · exact hp.dom_preheader
  · exact hp.dom.trans hx.dom

theorem inside_of_retired (hx : x ∈ p.retired) : p.Inside f e x := by
  rcases hp.mem_retired.1 hx with rfl | rfl | rfl
  · exact .inr (.inl rfl)
  · exact .inr (.inr hp.second.header_in)
  · exact .inr (.inr hp.second.latch_in)

theorem merged_iff : p.Merged f e x ↔ p.Inside f e x ∧ x ∉ p.retired := by
  constructor
  · rintro (hx | hx)
    · exact ⟨.inl hx, hp.not_retired_first hx⟩
    · exact ⟨.inr (.inr ((hp.secondBody x).1 hx).1), hp.not_retired_body hx⟩
  · rintro ⟨hx, hr⟩
    rw [hp.mem_retired] at hr
    simp only [not_or] at hr
    rcases hx with hx | hx | hx
    · exact .inl hx
    · exact absurd hx hr.1
    · exact .inr ((hp.secondBody x).2 ⟨hx, hr.2⟩)

theorem leave_inside (hx : p.Inside f e x) (hxy : f.Edge x y) (hy : ¬ p.Inside f e y) :
    x = p.second.header ∧ y = p.second.exit := by
  rcases hx with hx | rfl | hx
  · obtain ⟨-, rfl⟩ := hp.first.leave x y hx hxy fun h => hy (.inl h)
    exact absurd (.inr (.inl hp.meets)) hy
  · obtain rfl := (hp.second.leads y).1 hxy
    exact absurd (.inr (.inr hp.second.header_in)) hy
  · exact hp.second.leave x y hx hxy fun h => hy (.inr (.inr h))

theorem enter_inside (hx : ¬ p.Inside f e x) (hr : f.Leads e x) (hxy : f.Edge x y)
    (hy : p.Inside f e y) : y = p.first.header := by
  by_contra hne
  rcases hy with hy | rfl | hy
  · exact hx (.inl (hy.back hne hr hxy))
  · obtain rfl := hp.alone x hr hxy
    exact hx (.inl hp.first.header_in)
  · by_cases hyb : y = p.second.header
    · subst y
      rcases hp.second.preds_header.1 hxy with rfl | rfl
      · exact hx (.inr (.inl rfl))
      · exact hx (.inr (.inr hp.second.latch_in))
    · exact hx (.inr (.inr (hy.back hyb hr hxy)))

theorem exit_outside : ¬ p.Inside f e p.second.exit := by
  rintro (hx | hx | hx)
  · exact hp.exit_out hx
  · exact hp.exit_ne_preheader hx
  · exact hp.second.exit_out hx

theorem latch_inside : p.Inside f e p.first.latch := .inl hp.first.latch_in

end Fits

section Walks

variable (hw : f.WellFormed e) (hp : p.Fits f e)

include hw hp

theorem edge_exit : (p.fused f).Edge p.first.header p.second.exit :=
  (edge_fused_iff hw hp).2 (.inl ⟨rfl, rfl⟩)

theorem edge_chain : (p.fused f).Edge p.first.bodyTail p.second.bodyHead :=
  (edge_fused_iff hw hp).2 (.inr (.inl ⟨rfl, rfl⟩))

theorem edge_close : (p.fused f).Edge p.second.bodyTail p.first.latch :=
  (edge_fused_iff hw hp).2 (.inr (.inr (.inl ⟨rfl, rfl⟩)))

theorem edge_keep (hxy : f.Edge x y) (hx : x ∉ p.retired) (hy : y ∉ p.retired)
    (hne : y ≠ p.first.latch) : (p.fused f).Edge x y :=
  (edge_fused_iff hw hp).2 (.inr (.inr (.inr (.inr ⟨hxy, hx, hy, hne⟩))))

theorem edge_latch : (p.fused f).Edge p.first.latch p.first.header :=
  edge_keep hw hp hp.first.latch_edge (hp.not_retired_first hp.first.latch_in)
    (hp.not_retired_first hp.first.header_in) hp.first.latch_ne.symm

theorem edge_outside (hx : ¬ p.Inside f e x) (hr : f.Leads e x) (hxy : f.Edge x y) :
    (p.fused f).Edge x y := by
  refine edge_keep hw hp hxy (fun h => hx (hp.inside_of_retired h)) (fun h => ?_) ?_
  · exact hp.not_retired_first hp.first.header_in
      (hp.enter_inside hx hr hxy (hp.inside_of_retired h) ▸ h)
  · rintro rfl
    exact hp.first.latch_ne (hp.enter_inside hx hr hxy hp.latch_inside)

/-- A way on which all blocks but the latch at its end are kept. -/
theorem walk_kept {Q : BlockId → Prop} {latch : BlockId}
    (hkeep : ∀ z, Q z → z ≠ latch → z ∉ p.retired ∧ z ≠ p.first.latch)
    (hback : ∀ z, Q z → ¬ f.Edge latch z) (h : Walk f.Edge Q x y) (hy : y ≠ latch) :
    Walk (p.fused f).Edge (fun z => Q z ∧ z ≠ latch) x y := by
  induction h with
  | refl hx => exact .refl ⟨hx, hy⟩
  | @tail y z hw' hyz hz ih =>
    have hyl : y ≠ latch := by
      rintro rfl
      exact hback z hz hyz
    obtain ⟨hzr, hzl⟩ := hkeep z hz hy
    exact .tail (ih hyl) (edge_keep hw hp hyz (hkeep y hw'.last hyl).1 hzr hzl) ⟨hz, hy⟩

theorem walk_firstBody {Q : BlockId → Prop}
    (hQ : ∀ z, Q z → f.InLoop e p.first.header z ∧ z ≠ p.first.header)
    (h : Walk f.Edge Q x y) (hy : y ≠ p.first.latch) :
    Walk (p.fused f).Edge (fun z => Q z ∧ z ≠ p.first.latch) x y :=
  walk_kept hw hp (fun z hz hzl => ⟨hp.not_retired_first (hQ z hz).1, hzl⟩)
    (fun z hz he => (hQ z hz).2 ((hp.first.round z).1 he)) h hy

theorem walk_secondBody {Q : BlockId → Prop}
    (hQ : ∀ z, Q z → f.InLoop e p.second.header z ∧ z ≠ p.second.header)
    (h : Walk f.Edge Q x y) (hy : y ≠ p.second.latch) :
    Walk (p.fused f).Edge (fun z => Q z ∧ z ≠ p.second.latch) x y := by
  refine walk_kept hw hp (fun z hz hzl => ⟨?_, ?_⟩)
    (fun z hz he => (hQ z hz).2 ((hp.second.round z).1 he)) h hy
  · exact hp.not_retired_body ((hp.secondBody z).2 ⟨(hQ z hz).1, (hQ z hz).2, hzl⟩)
  · rintro rfl
    exact hp.apart _ hp.first.latch_in (hQ _ hz).1

theorem walk_before {P : BlockId → Prop}
    (h : Walk f.Edge (fun z => P z ∧ z ≠ p.first.header) e x) : Walk (p.fused f).Edge P e x := by
  induction h with
  | refl he => exact .refl he.1
  | @tail y z hw' hyz hz ih =>
    refine .tail ih (edge_outside hw hp (fun hin => ?_) hw'.reach hyz) hz.1
    exact (hp.dom_of_inside hin).2 (hw'.mono fun _ h => h.2)

theorem walk_to_header {P : BlockId → Prop} (h : Walk f.Edge P e p.first.header) :
    Walk (p.fused f).Edge P e p.first.header := by
  rcases h.firstVisit p.first.header with hw' | ⟨rfl | ⟨y, hw', hy⟩, -⟩
  · exact absurd rfl hw'.last.2
  · exact .refl h.last
  · refine .tail (walk_before hw hp hw') (edge_outside hw hp (fun hin => ?_) hw'.reach hy) h.last
    exact (hp.dom_of_inside hin).2 (hw'.mono fun _ h => h.2)

theorem edge_firstBody : (p.fused f).Edge p.first.header p.first.bodyHead :=
  edge_keep hw hp hp.first.bodyHead_edge (hp.not_retired_first hp.first.header_in)
    (hp.not_retired_first hp.first.bodyHead_in) hp.first.bodyHead_ne.1

theorem walk_to_first {P : BlockId → Prop} (h : Walk f.Edge P e x)
    (hx : f.InLoop e p.first.header x) (hne : x ≠ p.first.latch) :
    Walk (p.fused f).Edge P e x := by
  have hhead := walk_to_header hw hp (hx.dom.before h)
  rcases h.lastVisit p.first.header with hw' | ⟨-, rfl | ⟨y, hy, hw'⟩⟩
  · exact absurd (hw'.mono fun _ h => h.2) hx.dom.2
  · exact hhead
  · have hry := hp.first.reach.tail hy
    have hin := hx.walk_back_imp hry hw'
    have hyb : y = p.first.bodyHead := by
      rcases (hp.first.branch y).1 hy with rfl | rfl
      · rfl
      · exact absurd hin.first.2.1 hp.first.exit_out
    subst y
    have := walk_firstBody hw hp (fun z hz => hz.2) hin hne
    exact (hhead.tail (edge_firstBody hw hp) hw'.first.1).trans (this.mono fun _ h => h.1.1)

theorem merged_to_latch (hx : p.Merged f e x) (hne : x ≠ p.first.header) :
    Walk (p.fused f).Edge (fun z => p.Merged f e z ∧ z ≠ p.first.header) x p.first.latch := by
  have hla : p.Merged f e p.first.latch ∧ p.first.latch ≠ p.first.header :=
    ⟨.inl hp.first.latch_in, hp.first.latch_ne⟩
  have hsecond : ∀ {x}, x ∈ p.secondBody →
      Walk (p.fused f).Edge (fun z => p.Merged f e z ∧ z ≠ p.first.header) x p.first.latch := by
    intro x hx
    obtain ⟨hin, hxb, hxl⟩ := (hp.secondBody x).1 hx
    have hwt := walk_secondBody hw hp (fun z hz => hz) (hp.second.to_bodyTail hin hxb hxl)
      hp.second.bodyTail_ne_latch
    refine .tail (hwt.mono fun z hz => ⟨.inr ((hp.secondBody z).2 ⟨hz.1.1, hz.1.2, hz.2⟩), ?_⟩)
      (edge_close hw hp) hla
    rintro rfl
    exact hp.apart _ hp.first.header_in hz.1.1
  rcases hx with hx | hx
  · by_cases hxl : x = p.first.latch
    · subst x
      exact .refl hla
    · have hwt := walk_firstBody hw hp (fun z hz => hz) (hp.first.to_bodyTail hx hne hxl)
        hp.first.bodyTail_ne_latch
      exact (hwt.mono fun z hz => ⟨.inl hz.1.1, hz.1.2⟩).trans
        (.head ⟨.inl hp.first.tail_in, hp.first.bodyTail_ne⟩ (edge_chain hw hp)
          (hsecond hp.bodyHead_mem))
  · exact hsecond hx

theorem merged_from_header (hx : p.Merged f e x) :
    Walk (p.fused f).Edge (p.Merged f e) p.first.header x := by
  have hfirst : ∀ {x}, f.InLoop e p.first.header x → x ≠ p.first.latch →
      Walk (p.fused f).Edge (p.Merged f e) p.first.header x := by
    intro x hx hxl
    by_cases hne : x = p.first.header
    · subst x
      exact .refl (.inl hp.first.header_in)
    · have hwx := walk_firstBody hw hp (fun z hz => hz) (hp.first.from_bodyHead hx hne) hxl
      exact .head (.inl hp.first.header_in) (edge_firstBody hw hp)
        (hwx.mono fun z hz => .inl hz.1.1)
  have hsecond : ∀ {x}, x ∈ p.secondBody →
      Walk (p.fused f).Edge (p.Merged f e) p.first.header x := by
    intro x hx
    obtain ⟨hin, hxb, hxl⟩ := (hp.secondBody x).1 hx
    have hwx := walk_secondBody hw hp (fun z hz => hz) (hp.second.from_bodyHead hin hxb) hxl
    refine ((hfirst hp.first.tail_in hp.first.bodyTail_ne_latch).tail (edge_chain hw hp)
      (.inr hp.bodyHead_mem)).trans (hwx.mono fun z hz => ?_)
    exact .inr ((hp.secondBody z).2 ⟨hz.1.1, hz.1.2, hz.2⟩)
  rcases hx with hx | hx
  · by_cases hxl : x = p.first.latch
    · exact hxl ▸ (hsecond hp.bodyTail_mem).tail (edge_close hw hp) (.inl hp.first.latch_in)
    · exact hfirst hx hxl
  · exact hsecond hx

/-- Where a walk of the old function is in the new one: inside the loops it waits at the header. -/
def Arrives (p : FusionPlan) (f : Func) (e : BlockId) (P : BlockId → Prop) (x y : BlockId) : Prop :=
  ¬ p.Inside f e y ∧ Walk (p.fused f).Edge P x y ∨
    p.Inside f e y ∧ Walk (p.fused f).Edge P x p.first.header

theorem arrives_step {P : BlockId → Prop} (h : p.Arrives f e P x y) (hr : f.Leads e y)
    (hyz : f.Edge y z) (hz : P z) : p.Arrives f e P x z := by
  by_cases hin : p.Inside f e z
  · refine .inr ⟨hin, ?_⟩
    rcases h with ⟨hy, hwy⟩ | ⟨-, hwy⟩
    · obtain rfl := hp.enter_inside hy hr hyz hin
      exact hwy.tail (edge_outside hw hp hy hr hyz) hz
    · exact hwy
  · refine .inl ⟨hin, ?_⟩
    rcases h with ⟨hy, hwy⟩ | ⟨hy, hwy⟩
    · exact hwy.tail (edge_outside hw hp hy hr hyz) hz
    · obtain ⟨-, rfl⟩ := hp.leave_inside hy hyz hin
      exact hwy.tail (edge_exit hw hp) hz

theorem arrives_walk {P : BlockId → Prop} (h : p.Arrives f e P x y) (hr : f.Leads e y)
    (hyz : Walk f.Edge P y z) : p.Arrives f e P x z := by
  induction hyz with
  | refl => exact h
  | @tail u v hyu huv hv ih => exact arrives_step hw hp ih (hr.trans hyu.reach) huv hv

theorem entry_outside : ¬ p.Inside f e e := fun hin => by
  have hd := hp.dom_of_inside hin
  refine hd.2 (.refl ?_)
  rintro rfl
  exact hw.unentered _ hp.first.latch_edge

theorem leads_fused_iff : (p.fused f).Leads e x ↔ f.Leads e x ∧ x ∉ p.retired := by
  constructor
  · intro h
    refine ⟨leads_of_fused hw hp h, ?_⟩
    rcases h.cases_tail with rfl | ⟨y, -, hyx⟩
    · exact entry_not_retired hw hp
    · rcases (edge_fused_iff hw hp).1 hyx with ⟨-, rfl⟩ | ⟨-, rfl⟩ | ⟨-, rfl⟩ | ⟨-, rfl⟩ |
        ⟨-, -, h, -⟩
      · exact hp.exit_not_retired
      · exact hp.not_retired_body hp.bodyHead_mem
      · exact hp.not_retired_first hp.first.latch_in
      · exact hp.exit_not_retired
      · exact h
  · rintro ⟨h, hx⟩
    have hstart : p.Arrives f e (fun _ => True) e e := .inl ⟨entry_outside hw hp, .refl trivial⟩
    rcases arrives_walk hw hp hstart .refl (.ofReach h) with ⟨-, h⟩ | ⟨hin, h⟩
    · exact h.reach
    · exact h.reach.trans (merged_from_header hw hp (hp.merged_iff.2 ⟨hin, hx⟩)).reach

theorem leads_header : (p.fused f).Leads e p.first.header :=
  (leads_fused_iff hw hp).2 ⟨hp.first.reach, hp.not_retired_first hp.first.header_in⟩

theorem dom_fused_iff (hd : ¬ p.Inside f e h) (hx : x ∉ p.retired) :
    Dom (p.fused f).Edge e h x ↔ Dom f.Edge e h x := by
  constructor
  · intro hdom
    refine ⟨leads_of_fused hw hp hdom.1, fun hwx => hdom.2 ?_⟩
    have hmerged : ∀ z, p.Merged f e z → z ≠ h := by
      rintro z hz rfl
      exact hd (hp.merged_iff.1 hz).1
    have hstart : p.Arrives f e (· ≠ h) e e := .inl ⟨entry_outside hw hp, .refl hwx.first⟩
    rcases arrives_walk hw hp hstart .refl hwx with ⟨-, h⟩ | ⟨hin, h⟩
    · exact h
    · exact h.trans ((merged_from_header hw hp (hp.merged_iff.2 ⟨hin, hx⟩)).mono hmerged)
  · intro hdom
    refine dom_fused hw hp (fun h => hd (hp.inside_of_retired h)) ?_ hdom
    exact (leads_fused_iff hw hp).2 ⟨hdom.1, hx⟩

omit hw in
/-- The first loop is run through without the second. -/
theorem not_dom_first (hd : Dom f.Edge e p.second.header h) (hx : f.InLoop e p.first.header x) :
    ¬ Dom f.Edge e h x := by
  intro hhx
  have hout : ∀ z, f.InLoop e p.first.header z → z ≠ p.second.header := by
    rintro z hz rfl
    exact hp.apart _ hz hp.second.header_in
  have hbx := hd.trans hhx
  refine hp.header_ne (hp.dom.antisymm (hbx.of_step hp.first.reach ?_))
  by_cases hne : x = p.first.header
  · subst x
    exact .refl (hout _ hx)
  · exact .head (hout _ hp.first.header_in) hp.first.bodyHead_edge
      ((hp.first.from_bodyHead hx hne).mono fun z hz => hout z hz.1)

theorem walk_to_second {P Q : BlockId → Prop} (hta : Walk f.Edge P e p.first.bodyTail)
    (hQ : ∀ z, Q z → P z ∧ f.InLoop e p.second.header z ∧ z ≠ p.second.header)
    (hx : Walk f.Edge Q p.second.bodyHead x) (hne : x ≠ p.second.latch) :
    Walk (p.fused f).Edge P e x :=
  ((walk_to_first hw hp hta hp.first.tail_in hp.first.bodyTail_ne_latch).tail (edge_chain hw hp)
    (hQ _ hx.first).1).trans
      ((walk_secondBody hw hp (fun z hz => (hQ z hz).2) hx hne).mono fun z hz => (hQ z hz.1).1)

theorem not_back_chain : ¬ Dom (p.fused f).Edge e p.second.bodyHead p.first.bodyTail := by
  intro hdom
  refine hdom.2 (walk_to_first hw hp ?_ hp.first.tail_in hp.first.bodyTail_ne_latch)
  by_contra hn
  exact not_dom_first hp hp.second.bodyHead_in.dom hp.first.tail_in ⟨hp.first.tail_in.reach, hn⟩

theorem not_back_close : ¬ Dom (p.fused f).Edge e p.first.latch p.second.bodyTail := by
  intro hdom
  have hta : Walk f.Edge (· ≠ p.first.latch) e p.first.bodyTail := by
    by_contra hn
    exact hp.first.bodyTail_ne_latch (hp.first.dom_latch.antisymm ⟨hp.first.tail_in.reach, hn⟩)
  refine hdom.2 (walk_to_second hw hp hta (fun z hz => ⟨?_, hz⟩)
    (hp.second.from_bodyHead hp.second.tail_in hp.second.bodyTail_ne) hp.second.bodyTail_ne_latch)
  rintro rfl
  exact hp.apart _ hp.first.latch_in hz.1

/-- An edge that stays is a back edge only if it was one. -/
theorem dom_of_dom_fused (hlh : f.Edge l h) (hl : l ∉ p.retired) (hh : h ∉ p.retired)
    (hdom : Dom (p.fused f).Edge e h l) : Dom f.Edge e h l := by
  have hlead := leads_of_fused hw hp hdom.1
  by_cases hin : p.Inside f e h
  swap
  · exact (dom_fused_iff hw hp hin hl).1 hdom
  refine ⟨hlead, fun hwl => hdom.2 ?_⟩
  rcases hin with hin | rfl | hin
  · by_cases hha : h = p.first.header
    · subst h
      exact walk_before hw hp (hwl.mono fun z hz => ⟨hz, hz⟩)
    · refine walk_to_first hw hp hwl (hin.back hha hlead hlh) ?_
      rintro rfl
      exact hha ((hp.first.round h).1 hlh)
  · exact absurd (hp.mem_retired.2 (.inl rfl)) hh
  · have hhb : h ≠ p.second.header := by
      rintro rfl
      exact hh (hp.mem_retired.2 (.inr (.inl rfl)))
    have hlb := hin.back hhb hlead hlh
    have hlm : l ∈ p.secondBody := by
      rcases hp.merged_iff.2 ⟨.inr (.inr hlb), hl⟩ with h | h
      · exact absurd hlb (hp.apart _ h)
      · exact h
    obtain ⟨-, hlne, hlla⟩ := (hp.secondBody l).1 hlm
    have hta : Walk f.Edge (· ≠ h) e p.first.bodyTail := by
      by_contra hn
      exact not_dom_first hp hin.dom hp.first.tail_in ⟨hp.first.tail_in.reach, hn⟩
    rcases hwl.lastVisit p.second.header with hw' | ⟨-, rfl | ⟨y, hy, hw'⟩⟩
    · exact absurd (hw'.mono fun _ h => h.2) hlb.dom.2
    · exact absurd rfl hlne
    · have hinl := hlb.walk_back_imp (hp.second.reach.tail hy) hw'
      rcases (hp.second.branch y).1 hy with rfl | rfl
      · exact walk_to_second hw hp hta (fun z hz => hz) hinl hlla
      · exact absurd hinl.first.2.1 hp.second.exit_out

/-- A back edge of the fused function is an old one, unless the second loop left to the header of a
loop around it; then the first loop does so now. -/
theorem back_fused_iff : (p.fused f).Back e l h ↔
    f.Back e l h ∧ l ∉ p.retired ∧ h ∉ p.retired ∨
      l = p.first.header ∧ h = p.second.exit ∧ f.Back e p.second.header p.second.exit := by
  constructor
  · rintro ⟨hedge, hdom⟩
    have hlead := leads_of_fused hw hp hdom.1
    rcases (edge_fused_iff hw hp).1 hedge with ⟨rfl, rfl⟩ | ⟨rfl, rfl⟩ | ⟨rfl, rfl⟩ | ⟨hl, rfl⟩ |
      ⟨hlh, hl, hh, -⟩
    · refine .inr ⟨rfl, rfl, hp.second.exit_edge, ?_⟩
      exact ((dom_fused_iff hw hp hp.exit_outside
        (hp.not_retired_first hp.first.header_in)).1 hdom).trans hp.dom
    · exact absurd hdom (not_back_chain hw hp)
    · exact absurd hdom (not_back_close hw hp)
    · exact absurd hl (hp.not_redirected_of_reach hlead)
    · exact .inl ⟨⟨hlh, dom_of_dom_fused hw hp hlh hl hh hdom⟩, hl, hh⟩
  · rintro (⟨hback, hl, hh⟩ | ⟨rfl, rfl, hback⟩)
    · refine ⟨edge_keep hw hp hback.edge hl hh ?_, ?_⟩
      · rintro rfl
        exact hp.first.latch_not_header _ hback.inLoop
      · exact dom_fused hw hp hh ((leads_fused_iff hw hp).2 ⟨hback.dom.1, hl⟩) hback.dom
    · refine ⟨edge_exit hw hp, dom_fused hw hp hp.exit_not_retired (leads_header hw hp) ?_⟩
      exact dom_of_dom_second hp hp.exit_not_retired hback.dom

omit hw in
theorem preheader_not_header (x : BlockId) : ¬ f.InLoop e p.second.preheader x := by
  rintro ⟨l, hb, -⟩
  obtain rfl := hp.alone l hb.dom.1 hb.edge
  exact hp.first.exit_ne (hp.meets.trans (hb.dom.antisymm hp.dom_preheader))

/-- The blocks of the loop of `h` in the fused function. -/
def Kept (p : FusionPlan) (f : Func) (e h x : BlockId) : Prop :=
  f.InLoop e h x ∧ h ≠ p.second.header ∧ x ∉ p.retired ∨
    h = p.first.header ∧ x ∈ p.secondBody

omit hw in
theorem kept_of_header (hb : f.InLoop e h p.second.header) (hh : h ≠ p.second.header)
    (ha : h ≠ p.first.header) (hx : f.InLoop e p.first.header x) : p.Kept f e h x :=
  .inl ⟨((hp.siblings h ha hh).2 hb).trans hx, hh, hp.not_retired_first hx⟩

theorem kept_of_back (hb : (p.fused f).Back e l h) : p.Kept f e h l ∧ p.Kept f e h h := by
  rcases (back_fused_iff hw hp).1 hb with ⟨hback, hl, hh⟩ | ⟨rfl, rfl, hback⟩
  · have hne : h ≠ p.second.header := by
      rintro rfl
      exact hh (hp.mem_retired.2 (.inr (.inl rfl)))
    exact ⟨.inl ⟨hback.inLoop, hne, hl⟩, .inl ⟨hback.inLoop.header, hne, hh⟩⟩
  · have hne : p.second.exit ≠ p.first.header := fun h =>
      hp.exit_outside (h ▸ .inl hp.first.header_in)
    exact ⟨kept_of_header hp hback.inLoop hp.second.exit_ne hne hp.first.header_in,
      .inl ⟨hback.inLoop.header, hp.second.exit_ne, hp.exit_not_retired⟩⟩

/-- The kept blocks are closed backwards, the header apart. -/
theorem kept_back (hx : p.Kept f e h x) (hne : x ≠ h) (hr : (p.fused f).Leads e y)
    (hyx : (p.fused f).Edge y x) : p.Kept f e h y := by
  have hlead := leads_of_fused hw hp hr
  rcases hx with ⟨hin, hh, hx⟩ | ⟨rfl, hx⟩
  · rcases (edge_fused_iff hw hp).1 hyx with ⟨rfl, rfl⟩ | ⟨rfl, rfl⟩ | ⟨rfl, rfl⟩ | ⟨hy, rfl⟩ |
      ⟨hedge, hy, -, -⟩
    · have hb := hin.back hne hp.second.reach hp.second.exit_edge
      refine kept_of_header hp hb hh ?_ hp.first.header_in
      rintro rfl
      exact hp.exit_out hin
    · have hb := hin.back hne hp.second.reach hp.second.bodyHead_edge
      refine kept_of_header hp hb hh ?_ hp.first.tail_in
      rintro rfl
      exact hp.apart _ hin hp.second.bodyHead_in
    · by_cases ha : h = p.first.header
      · exact .inr ⟨ha, hp.bodyTail_mem⟩
      · have hb := (hp.siblings h ha hh).1 (hp.first.header_of_latch hin)
        exact .inl ⟨hb.trans hp.second.tail_in, hh, hp.not_retired_body hp.bodyTail_mem⟩
    · exact absurd hy (hp.not_redirected_of_reach hlead)
    · exact .inl ⟨hin.back hne hlead hedge, hh, hy⟩
  · obtain ⟨hin, hxb, hxl⟩ := (hp.secondBody x).1 hx
    rcases (edge_fused_iff hw hp).1 hyx with ⟨rfl, rfl⟩ | ⟨rfl, rfl⟩ | ⟨rfl, rfl⟩ | ⟨hy, rfl⟩ |
      ⟨hedge, hy, -, -⟩
    · exact absurd hin hp.second.exit_out
    · exact .inl ⟨hp.first.tail_in, hp.header_ne, hp.not_retired_first hp.first.tail_in⟩
    · exact absurd hin (hp.apart _ hp.first.latch_in)
    · exact absurd hy (hp.not_redirected_of_reach hlead)
    · have hyb := hin.back hxb hlead hedge
      rcases hp.merged_iff.2 ⟨.inr (.inr hyb), hy⟩ with h | h
      · exact absurd hyb (hp.apart _ h)
      · exact .inr ⟨rfl, h⟩

theorem kept_of_inLoop (h' : (p.fused f).InLoop e h x) : p.Kept f e h x := by
  obtain ⟨l, hb, rfl | ⟨hr, hwx⟩⟩ := h'
  · exact (kept_of_back hw hp hb).2
  · have hl := (kept_of_back hw hp hb).1
    clear hb
    induction hwx with
    | refl => exact hl
    | @tail y z hxy hyz hz ih => exact ih (kept_back hw hp hl hz (hr.trans hxy.reach) hyz)

theorem inLoop_first (hx : p.Merged f e x) : (p.fused f).InLoop e p.first.header x := by
  have hback : (p.fused f).Back e p.first.latch p.first.header :=
    (back_fused_iff hw hp).2 (.inl ⟨(hp.first.back _).2 rfl,
      hp.not_retired_first hp.first.latch_in, hp.not_retired_first hp.first.header_in⟩)
  by_cases hne : x = p.first.header
  · exact ⟨_, hback, .inl hne⟩
  · refine ⟨_, hback, .inr ⟨?_, (merged_to_latch hw hp hx hne).mono fun z hz => hz.2⟩⟩
    exact (leads_header hw hp).trans (merged_from_header hw hp hx).reach

/-- A loop that keeps its header, its latches and the ways to them keeps its blocks. -/
theorem inLoop_of_kept (hh : h ∉ p.retired) (h' : f.InLoop e h x)
    (hkeep : ∀ l, f.Back e l h → l ∉ p.retired ∧
      (Walk f.Edge (fun z => f.InLoop e h z ∧ z ≠ h) x l →
        x ∉ p.retired ∧ Walk (p.fused f).Edge (· ≠ h) x l)) : (p.fused f).InLoop e h x := by
  obtain ⟨l, hback, hx⟩ := h'
  obtain ⟨hl, hways⟩ := hkeep l hback
  have hback' : (p.fused f).Back e l h := (back_fused_iff hw hp).2 (.inl ⟨hback, hl, hh⟩)
  rcases hx with rfl | ⟨hr, hwx⟩
  · exact ⟨l, hback', .inl rfl⟩
  · obtain ⟨hx, hwx'⟩ := hways (hback.inLoop.walk_back hr hwx)
    exact ⟨l, hback', .inr ⟨(leads_fused_iff hw hp).2 ⟨hr, hx⟩, hwx'⟩⟩

theorem inLoop_inFirst (hin : f.InLoop e p.first.header h) (ha : h ≠ p.first.header)
    (h' : f.InLoop e h x) : (p.fused f).InLoop e h x := by
  have hsub : ∀ z, f.InLoop e h z → f.InLoop e p.first.header z ∧ z ≠ p.first.header :=
    fun z hz => hin.inner ha.symm hz
  have hret : ∀ z, f.InLoop e h z → z ∉ p.retired := fun z hz =>
    hp.not_retired_first (hsub z hz).1
  refine inLoop_of_kept hw hp (hret h h'.header) h' fun l hback =>
    ⟨hret l hback.inLoop, fun hwx => ⟨hret x hwx.first.1, ?_⟩⟩
  refine (walk_firstBody hw hp (fun z hz => hsub z hz.1) hwx ?_).mono fun z hz => hz.1.2
  rintro rfl
  exact ha ((hp.first.round h).1 hback.edge)

theorem inLoop_inSecond (hin : f.InLoop e p.second.header h) (hb : h ≠ p.second.header)
    (h' : f.InLoop e h x) : (p.fused f).InLoop e h x := by
  have hsub : ∀ z, f.InLoop e h z → f.InLoop e p.second.header z ∧ z ≠ p.second.header :=
    fun z hz => hin.inner hb.symm hz
  have hret : ∀ z, f.InLoop e h z → z ≠ p.second.latch → z ∉ p.retired := fun z hz hne =>
    hp.not_retired_body ((hp.secondBody z).2 ⟨(hsub z hz).1, (hsub z hz).2, hne⟩)
  have hhl : h ≠ p.second.latch := by
    rintro rfl
    exact hp.second.latch_not_header _ h'
  refine inLoop_of_kept hw hp (hret h h'.header hhl) h' fun l hback => ?_
  have hll : l ≠ p.second.latch := by
    rintro rfl
    exact hb ((hp.second.round h).1 hback.edge)
  refine ⟨hret l hback.inLoop hll, fun hwx => ?_⟩
  have hwx' := walk_secondBody hw hp (fun z hz => hsub z hz.1) hwx hll
  exact ⟨hret x hwx.first.1 hwx'.first.2, hwx'.mono fun z hz => hz.1.2⟩

theorem inLoop_inner (hin : p.Inside f e h) (ha : h ≠ p.first.header)
    (hb : h ≠ p.second.header) (h' : f.InLoop e h x) : (p.fused f).InLoop e h x := by
  rcases hin with hin | rfl | hin
  · exact inLoop_inFirst hw hp hin ha h'
  · exact absurd h' (preheader_not_header hp _)
  · exact inLoop_inSecond hw hp hin hb h'

/-- A loop around the two, or apart from them, loses what is retired. -/
theorem inLoop_outer (hout : ¬ p.Inside f e h) (h' : f.InLoop e h x) (hx : x ∉ p.retired) :
    (p.fused f).InLoop e h x := by
  have hmerged : ∀ z, p.Merged f e z → z ≠ h := by
    rintro z hz rfl
    exact hout (hp.merged_iff.1 hz).1
  have hhead : ∀ z, p.Merged f e z → Walk (p.fused f).Edge (· ≠ h) z p.first.header := by
    intro z hz
    have hha := hmerged _ (.inl hp.first.header_in)
    by_cases hne : z = p.first.header
    · subst z
      exact .refl hha
    · exact ((merged_to_latch hw hp hz hne).mono fun y hy => hmerged y hy.1).tail
        (edge_latch hw hp) hha
  have hr : (p.fused f).Leads e x := (leads_fused_iff hw hp).2 ⟨h'.reach, hx⟩
  -- where a back edge came from, or from the first header now
  have hback' : ∀ l, f.Back e l h → p.Arrives f e (· ≠ h) x l ∨ x = h →
      (p.fused f).InLoop e h x := by
    intro l hback hl
    have hhr : h ∉ p.retired := fun hh => hout (hp.inside_of_retired hh)
    by_cases hin : p.Inside f e l
    · obtain ⟨rfl, rfl⟩ := hp.leave_inside hin hback.edge hout
      refine ⟨_, (back_fused_iff hw hp).2 (.inr ⟨rfl, rfl, hback⟩), ?_⟩
      rcases hl with (⟨hn, -⟩ | ⟨-, hl⟩) | rfl
      · exact absurd hin hn
      · exact .inr ⟨hr, hl⟩
      · exact .inl rfl
    · refine ⟨l, (back_fused_iff hw hp).2
        (.inl ⟨hback, fun hl => hin (hp.inside_of_retired hl), hhr⟩), ?_⟩
      rcases hl with (⟨-, hl⟩ | ⟨hn, -⟩) | rfl
      · exact .inr ⟨hr, hl⟩
      · exact absurd hn hin
      · exact .inl rfl
  by_cases hxh : x = h
  · obtain ⟨l, hback, -⟩ := h'
    exact hback' l hback (.inr hxh)
  · obtain ⟨l, hback, hwx⟩ := h'.to_latch hxh
    have hwx := hwx.mono fun z hz => hz.2
    refine hback' l hback (.inl (arrives_walk hw hp ?_ h'.reach hwx))
    by_cases hin : p.Inside f e x
    · exact .inr ⟨hin, hhead x (hp.merged_iff.2 ⟨hin, hx⟩)⟩
    · exact .inl ⟨hin, .refl hxh⟩

/-- Every loop but the second keeps its blocks, apart from those retired, and the first takes in the
second body. -/
theorem inLoop_fused_iff : (p.fused f).InLoop e h x ↔
    f.InLoop e h x ∧ h ≠ p.second.header ∧ x ∉ p.retired ∨
      h = p.first.header ∧ x ∈ p.secondBody := by
  constructor
  · exact kept_of_inLoop hw hp
  · rintro (⟨hin, hb, hx⟩ | ⟨rfl, hx⟩)
    · by_cases ha : h = p.first.header
      · subst h
        exact inLoop_first hw hp (.inl hin)
      · by_cases hh : p.Inside f e h
        · exact inLoop_inner hw hp hh ha hb hin
        · exact inLoop_outer hw hp hh hin hx
    · exact inLoop_first hw hp (.inr hx)

end Walks

end FusionPlan

end LoopFusion
