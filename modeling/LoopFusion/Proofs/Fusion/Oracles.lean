import LoopFusion.Proofs.Fusion.Conflicts
import LoopFusion.Proofs.Fusion.Distances
import LoopFusion.Proofs.Fusion.History
import LoopFusion.Proofs.Fusion.Renaming
import LoopFusion.Proofs.Symbolic.Firm

/-!
The check of distances under another oracle. A report only says which pair of accesses to look at;
whether the pair passes is up to the engine. So an oracle that reports more pairs rejects more, and
the direction of a report decides nothing.
-/

namespace LoopFusion

open Inquiry Describe

namespace Check

variable {α : Type} {l : List α} {g : α → Check Unit} {s : Session}

/-- Each of the checks of a list that passes has passed, in a session of which nothing is lost. -/
theorem passes_of_forM (hkeep : ∀ x ∈ l, (g x).run.Keeps) (h : ((l.forM g).run s).1 = .ok ()) :
    ∀ x ∈ l, ∃ t, ((g x).run t).1 = .ok () ∧ ((g x).run t).2.Kept ((l.forM g).run s).2 := by
  induction l generalizing s with
  | nil => exact nofun
  | cons x l ih =>
    rw [List.forall_mem_cons] at hkeep
    have hrun : (x :: l).forM g = g x >>= fun _ => l.forM g := rfl
    rw [hrun] at h ⊢
    cases hx : ((g x).run s).1 with
    | error r =>
      rw [run_bind_of_error hx] at h
      cases h
    | ok u =>
      rw [run_bind_of_ok hx] at h ⊢
      exact List.forall_mem_cons.2 ⟨⟨s, hx, keeps_forM hkeep.2 _⟩, ih hkeep.2 h⟩

/-- A list of checks passes if each of them does, in every session of which nothing is lost. -/
theorem forM_passes (hkeep : ∀ x ∈ l, (g x).run.Keeps)
    (h : ∀ x ∈ l, ∀ t, ((g x).run t).2.Kept ((l.forM g).run s).2 → ((g x).run t).1 = .ok ()) :
    ((l.forM g).run s).1 = .ok () := by
  induction l generalizing s with
  | nil => rfl
  | cons x l ih =>
    rw [List.forall_mem_cons] at hkeep h
    have hrun : (x :: l).forM g = g x >>= fun _ => l.forM g := rfl
    rw [hrun] at h ⊢
    cases hx : ((g x).run s).1 with
    | error r =>
      have hok := h.1 s (by rw [run_bind_of_error hx]; exact .refl _)
      rw [hx] at hok
      cases hok
    | ok u =>
      rw [run_bind_of_ok hx] at h ⊢
      exact ih hkeep.2 h.2

/-- Both pass, or neither does. -/
def Agree (u v : Except Rejection Unit) : Prop := u = .ok () ↔ v = .ok ()

theorem agree_forM {A : Accord} {g' : α → Check Unit} (hkeep : ∀ x ∈ l, (g x).run.Keeps)
    (hkeep' : ∀ x ∈ l, (g' x).run.Keeps)
    (h : ∀ x ∈ l, Inquiry.Alongside A Agree (g x).run (g' x).run) :
    Inquiry.Alongside A Agree (l.forM g).run (l.forM g').run := by
  induction l with
  | nil => exact Inquiry.alongside_pure .rfl
  | cons x l ih =>
    rw [List.forall_mem_cons] at hkeep hkeep' h
    change Inquiry.Alongside A Agree (g x >>= fun _ => l.forM g).run (g' x >>= fun _ => l.forM g').run
    rw [run_bind, run_bind]
    refine h.1.bind (fun v => ?_) (fun v => ?_) fun v v' hv => ?_
    · cases v with
      | ok _ => exact (keeps_forM hkeep.2).grows
      | error r => exact grows_pure _
    · cases v with
      | ok _ => exact (keeps_forM hkeep'.2).grows
      | error r => exact grows_pure _
    · cases v with
      | ok _ =>
        obtain rfl := hv.1 rfl
        exact ih hkeep.2 hkeep'.2 h.2
      | error r =>
        cases v' with
        | ok _ => cases hv.2 rfl
        | error r' => exact Inquiry.alongside_pure ⟨nofun, nofun⟩

end Check

namespace Func

variable {f : Func} {e : BlockId} {l : Loop} {x : InstId} {addr : Value} {w : Session}

theorem WellFormed.present_address (hw : f.WellFormed e) (hl : l ∈ f.forest.loops)
    (hx : x ∈ l.blocks.flatMap f.body) (h : (f.op? x).bind Operation.address? = some addr) :
    f.Present addr := by
  obtain ⟨op, hop, haddr⟩ := Option.bind_eq_some_iff.1 h
  obtain ⟨b, hb, hi⟩ := List.mem_flatMap.1 hx
  obtain ⟨k, hk⟩ := List.getElem?_of_mem hi
  have hphi : ¬ op.isPhi := by cases op <;> first | exact Bool.false_ne_true | cases haddr
  exact (hw.uses b (LoopForest.blocks_subset hl hb) k x hk op hop hphi addr
    (Operation.mem_operands_of_address? haddr)).1.present

theorem WellFormed.firm_resolve (hw : f.WellFormed e) (hl : l ∈ f.forest.loops)
    (hx : x ∈ l.blocks.flatMap f.body) (scope : LoopId) :
    Firm f f.forest w ((Engine.ofFunc f f.forest).resolve f x scope) := by
  unfold Engine.resolve
  split
  case h_1 => exact firm_pure _
  case h_2 addr haddr =>
    refine (firm_value (hw.present_address hl hx haddr) (some scope)).bind (fun z => ?_) fun z => ?_
    · cases z <;> exact keeps_pure _
    · cases z <;> exact firm_pure _

theorem length_copyLoops : copyLoops.forest.loops.length = 2 := by decide +kernel

end Func

namespace Checker

open Check

variable {f : Func} {e : BlockId} {keep : Bool} {a b : Loop} {x y : InstId} {c : Checker}
  {dep dep' : Dependence} {first? second? : Option AffineAccess} {s w : Session}

/-! The verdict on two accesses. -/

/-- The accesses move alike, and the second comes to an address in no earlier a round. -/
def Forward (c : Checker) (first? second? : Option AffineAccess) : Prop :=
  ∃ first second d, first? = some first ∧ second? = some second ∧ c.Spaced first second d ∧
    c.engine.proves .sge d .zero

/-- The report is for the messages only. -/
theorem weigh_eq_ok : ((c.weigh dep first? second?).run s).1 = .ok () ↔ c.Forward first? second? := by
  constructor
  · intro h
    have hweighed : c.Weighed first? second? ((c.weigh dep first? second?).run s).1 :=
      weigh_ensures dep s
    rw [h] at hweighed
    cases hweighed with
    | forward hfirst hsecond hspaced hge => exact ⟨_, _, _, hfirst, hsecond, hspaced, hge⟩
  · rintro ⟨first, second, d, rfl, rfl, hspaced, hge⟩
    have hnonZero : (c.engine.nonZero first.stride && c.engine.nonZero second.stride) = true := by
      rw [← hspaced.stride, Bool.and_self]
      exact hspaced.nonZero
    have hpass : (c.weigh dep (some first) (some second)).run.Ensures (· = .ok ()) := by
      rw [weigh, need_some_bind, need_some_bind, hnonZero, demand_true_bind]
      refine ensures_ask_bind fun _ => ensures_ask_bind fun _ => ?_
      rw [decide_eq_true hspaced.stride, demand_true_bind, hspaced.distance, need_some_bind]
      refine ensures_ask_bind fun _ => ?_
      rw [if_pos hge]
      split
      · exact fun _ => rfl
      · exact fun _ => rfl
    exact hpass s

/-- The two accesses pass in every session whose findings `w` confirms. -/
structure Clear (c : Checker) (a b : Loop) (w : Session) (x y : InstId) : Prop where
  first : c.inLoop x a
  second : c.inLoop y b
  forward : ∃ first? second?,
    FirmAt c.func c.facts.loops w (c.engine.resolve c.func x a.id) first? ∧
    FirmAt c.func c.facts.loops w (c.engine.resolve c.func y b.id) second? ∧
    c.Forward first? second?

theorem checkDistance_eq_ok
    (hx : Firm f f.forest w ((Engine.ofFunc f f.forest).resolve f dep.src a.id))
    (hy : Firm f f.forest w ((Engine.ofFunc f f.forest).resolve f dep.dst b.id))
    (hs : Recalled f f.forest (((builtIn (.ofFunc f) keep).checkDistance a b dep).run s).2 w) :
    (((builtIn (.ofFunc f) keep).checkDistance a b dep).run s).1 = .ok () ↔
      (builtIn (.ofFunc f) keep).Clear a b w dep.src dep.dst := by
  by_cases hin : (builtIn (.ofFunc f) keep).inLoop dep.src a ∧
      (builtIn (.ofFunc f) keep).inLoop dep.dst b
  · obtain ⟨hina, hinb⟩ := hin
    rw [checkDistance_eq_weigh hina hinb, run_ask_bind] at hs ⊢
    have hsecond := Recalled.before hs ((quiet_weigh (c := builtIn (.ofFunc f) keep) dep _ _).keeps _)
    have hfirst := hsecond.before ((Engine.gathers_resolve f f.forest dep.dst b.id).keeps _)
    refine weigh_eq_ok.trans ⟨fun h => ?_, fun h => ?_⟩
    · obtain ⟨first?, hx⟩ := hx
      obtain ⟨second?, hy⟩ := hy
      refine ⟨hina, hinb, first?, second?, hx, hy, ?_⟩
      rwa [← hx s hfirst, ← hy _ hsecond]
    · obtain ⟨first?, second?, hx, hy, h⟩ := h.forward
      rwa [← hx s hfirst, ← hy _ hsecond] at h
  · obtain ⟨l, hl⟩ := checkDistance_eq_reject hin
    rw [hl]
    exact ⟨nofun, fun h => absurd ⟨h.first, h.second⟩ hin⟩

end Checker

/-! Oracles. -/

namespace Oracle

/-- The oracle names the accesses that it was asked about; it drops nothing that the engine knows,
and where two engines answer alike, it does so, too. -/
structure Faithful (o : Oracle) (f : Func) : Prop where
  names : ∀ x y same s dep, (o.depends x y same s).1 = some dep → dep.src = x ∧ dep.dst = y
  keeps : ∀ x y same, (o.depends x y same).Keeps
  steady : ∀ {A : Accord} {R : Poly → Poly → Prop} {wording : Prop}, Concord f A R wording →
    ∀ x y same, Alongside A (· = ·) (o.depends x y same) (o.depends x y same)

variable {f : Func}

theorem faithful_ofEngine (f : Func) :
    (ofEngine f f.forest (.ofFunc f f.forest)).Faithful f where
  names _ _ _ s dep h :=
    let ⟨hsrc, hdst, _⟩ := answer_ensures (t := f.forest) s dep h
    ⟨hsrc, hdst⟩
  keeps x y same := (gathers_answer f f.forest x y same).keeps
  steady h := h.answer

/-- The oracle that reports the dependences of a table. -/
def ofTable (deps : List Dependence) : Oracle :=
  ⟨fun x y _ => return deps.find? fun d => d.src = x && d.dst = y⟩

theorem faithful_ofTable (deps : List Dependence) : (ofTable deps).Faithful f where
  names x y _ _ dep h := by
    have h : deps.find? (fun d => d.src = x && d.dst = y) = some dep := h
    simpa using List.find?_some h
  keeps _ _ _ := keeps_pure _
  steady _ _ _ _ := alongside_pure rfl

/-- The reports of `o` with other particulars. -/
def relabel (o : Oracle) (g : Dependence → Dependence) : Oracle :=
  ⟨fun x y same => return (← o.depends x y same).map g⟩

theorem Faithful.relabel {o : Oracle} {g : Dependence → Dependence} (h : o.Faithful f)
    (hg : ∀ dep, (g dep).src = dep.src ∧ (g dep).dst = dep.dst) : (o.relabel g).Faithful f where
  names x y same s dep hdep := by
    obtain ⟨own, hown, rfl⟩ := Option.map_eq_some_iff.1 hdep
    obtain ⟨hsrc, hdst⟩ := h.names x y same s own hown
    exact ⟨(hg own).1.trans hsrc, (hg own).2.trans hdst⟩
  keeps x y same := (h.keeps x y same).bind fun _ => keeps_pure _
  steady hc x y same := (h.steady hc x y same).bind_same (fun _ => grows_pure _)
    fun _ _ hdep => alongside_pure (congrArg _ hdep)

end Oracle

namespace Checker

open Check

variable {f : Func} {e : BlockId} {keep : Bool} {a b : Loop} {x y : InstId} {c c' : Checker}
  {o o' : Oracle} {dep dep' : Dependence} {A : Accord} {R : Poly → Poly → Prop} {wording : Prop}
  {s s' w : Session}

/-- The checker with the built-in engine that asks `o` about dependences. -/
def asking (f : Func) (keep : Bool) (o : Oracle) : Checker :=
  ⟨.ofFunc f, .ofFunc f f.forest, o, keep⟩

/-- The report is of a dependence that has to be looked at. -/
def Told (c : Checker) (dep? : Option Dependence) : Prop := ∃ dep, dep? = some dep ∧ c.matters dep

instance (c : Checker) (dep? : Option Dependence) : Decidable (c.Told dep?) :=
  decidable_of_iff (dep?.any c.matters) (Option.any_eq_true ..)

/-- The oracle reports a dependence that has to be looked at. -/
def Reports (c : Checker) (x y : InstId) (s : Session) : Prop :=
  c.Told (c.oracle.depends x y true s).1

theorem checkPair_asking (f : Func) (keep : Bool) (o : Oracle) (a b : Loop) (x y : InstId) :
    (asking f keep o).checkPair a b (x, y) = (do
      (builtIn (.ofFunc f) keep).checkReport a b (← ask (o.depends x y true))) :=
  checkPair_eq x y

theorem keeps_checkPair_asking (ho : o.Faithful f) (p : InstId × InstId) :
    ((asking f keep o).checkPair a b p).run.Keeps := by
  rw [checkPair_asking]
  exact keeps_bind (keeps_ask (ho.keeps _ _ _)) Concord.keeps_checkReport

theorem keeps_asking (ho : o.Faithful f) : ((asking f keep o).checkDistances a b).run.Keeps :=
  keeps_forM fun p _ => keeps_checkPair_asking ho p

theorem alongside_asking (h : Concord f A R wording) (ho : o.Faithful f) :
    Check.Alongside A wording (· = ·) ((asking f keep o).checkDistances a b)
      ((asking f keep o).checkDistances a b) := by
  refine alongside_forM (fun p _ => keeps_checkPair_asking ho p) fun p _ => ?_
  rw [checkPair_asking]
  refine (alongside_ask (ho.steady h _ _ _)).bind_same Concord.keeps_checkReport fun dep? _ hdep => ?_
  subst hdep
  exact h.alongside_checkReport dep?

theorem checkReport_eq {dep? : Option Dependence} (hdep : dep? = some dep) (hm : c.matters dep) :
    c.checkReport a b dep? = (do
      ask (Inquiry.write .debug .legality ("checking dependence " ++ dep.text c.func))
      c.checkDistance a b dep) := by
  rw [hdep, checkReport, if_pos hm]

theorem checkReport_eq_pure {dep? : Option Dependence} (h : ¬ c.Told dep?) :
    c.checkReport a b dep? = pure () := by
  cases dep? with
  | none => rfl
  | some dep => rw [checkReport, if_neg fun hm => h ⟨dep, rfl, hm⟩]

theorem recalled_depends
    (hs : Recalled f f.forest (((asking f keep o).checkPair a b (x, y)).run s).2 w) :
    Recalled f f.forest (o.depends x y true s).2 w := by
  rw [checkPair_asking, run_ask_bind] at hs
  exact hs.before (Concord.keeps_checkReport _ _)

theorem checkPair_eq_ok (hw : f.WellFormed e) (ha : a ∈ f.forest.loops) (hb : b ∈ f.forest.loops)
    (ho : o.Faithful f) (hp : (x, y) ∈ (asking f keep o).pairs a b)
    (hs : Recalled f f.forest (((asking f keep o).checkPair a b (x, y)).run s).2 w) :
    (((asking f keep o).checkPair a b (x, y)).run s).1 = .ok () ↔
      ((asking f keep o).Reports x y s → (builtIn (.ofFunc f) keep).Clear a b w x y) := by
  obtain ⟨hx, hy, -⟩ := of_mem_pairs hp
  rw [checkPair_asking, run_ask_bind] at hs ⊢
  change Recalled f f.forest (((builtIn (.ofFunc f) keep).checkReport a b
    (o.depends x y true s).1).run (o.depends x y true s).2).2 w at hs
  change (((builtIn (.ofFunc f) keep).checkReport a b
    (o.depends x y true s).1).run (o.depends x y true s).2).1 = _ ↔ _
  by_cases hreport : (asking f keep o).Reports x y s
  · obtain ⟨dep, hdep, hm⟩ : (builtIn (.ofFunc f) keep).Told (o.depends x y true s).1 := hreport
    obtain ⟨rfl, rfl⟩ := ho.names _ _ _ _ _ hdep
    rw [checkReport_eq hdep hm, run_ask_bind] at hs ⊢
    have hpass := checkDistance_eq_ok (hw.firm_resolve ha hx a.id) (hw.firm_resolve hb hy b.id) hs
    exact hpass.trans ⟨fun h _ => h, fun h => h ⟨dep, hdep, hm⟩⟩
  · have hnone : ¬ (builtIn (.ofFunc f) keep).Told (o.depends x y true s).1 := hreport
    rw [checkReport_eq_pure hnone]
    exact iff_of_true rfl fun h => absurd h hreport

/-- Whatever examined pair `c` finds reported, `c'` finds reported, in sessions of which one session
confirms all findings. -/
def Covers (c' c : Checker) (a b : Loop) : Prop :=
  ∀ p ∈ c.pairs a b, ∀ w t t',
    Recalled c.func c.facts.loops (c.oracle.depends p.1 p.2 true t).2 w →
    Recalled c.func c.facts.loops (c'.oracle.depends p.1 p.2 true t').2 w →
    c.Reports p.1 p.2 t → c'.Reports p.1 p.2 t'

theorem passes_of_covers (hw : f.WellFormed e) (ha : a ∈ f.forest.loops) (hb : b ∈ f.forest.loops)
    (ho : o.Faithful f) (ho' : o'.Faithful f)
    (hcov : (asking f keep o').Covers (asking f keep o) a b)
    (hs : Recalled f f.forest (((asking f keep o).checkDistances a b).run s).2 w)
    (hs' : Recalled f f.forest (((asking f keep o').checkDistances a b).run s').2 w)
    (h : (((asking f keep o').checkDistances a b).run s').1 = .ok ()) :
    (((asking f keep o).checkDistances a b).run s).1 = .ok () := by
  refine forM_passes (fun p _ => keeps_checkPair_asking ho p) fun ⟨x, y⟩ hp t ht => ?_
  have hend := Recalled.before hs ht
  refine (checkPair_eq_ok hw ha hb ho hp hend).2 fun hreport => ?_
  obtain ⟨t', hpass, ht'⟩ :=
    passes_of_forM (fun p _ => keeps_checkPair_asking ho' p) h (x, y) hp
  have hend' := Recalled.before hs' ht'
  exact (checkPair_eq_ok hw ha hb ho' hp hend').1 hpass
    (hcov (x, y) hp w t t' (recalled_depends hend) (recalled_depends hend') hreport)

/-! Oracles that report the same pairs. -/

theorem agree_checkDistance (h : Concord f A (· = ·) wording) (hsrc : dep.src = dep'.src)
    (hdst : dep.dst = dep'.dst) : Alongside A Agree
      ((builtIn (.ofFunc f) keep).checkDistance a b dep).run
      ((builtIn (.ofFunc f) keep).checkDistance a b dep').run := by
  have hquiet (dep : Dependence) (x : Option AffineAccess) : Grows (ExceptT.run (do
      (builtIn (.ofFunc f) keep).weigh dep x
        (← ask ((Engine.ofFunc f f.forest).resolve f dep'.dst b.id)))) :=
    (keeps_bind (keeps_ask (Engine.gathers_resolve f f.forest _ _).keeps)
      fun y => (quiet_weigh dep x y).keeps).grows
  by_cases hin : (builtIn (.ofFunc f) keep).inLoop dep'.src a ∧
      (builtIn (.ofFunc f) keep).inLoop dep'.dst b
  · rw [checkDistance_eq_weigh hin.1 hin.2, checkDistance_eq_weigh (hsrc ▸ hin.1) (hdst ▸ hin.2),
      hsrc, hdst, run_ask_bind, run_ask_bind]
    refine (h.resolve dep'.src a.id).bind (hquiet dep) (hquiet dep') fun x _ hx => ?_
    obtain rfl := AffineAccess.eq_of_alike hx
    rw [run_ask_bind, run_ask_bind]
    refine (h.resolve dep'.dst b.id).bind (fun y => (quiet_weigh dep x y).keeps.grows)
      (fun y => (quiet_weigh dep' x y).keeps.grows) fun y _ hy => ?_
    obtain rfl := AffineAccess.eq_of_alike hy
    exact fun t t' hrel _ => ⟨weigh_eq_ok.trans weigh_eq_ok.symm, A.rel_of_eq hrel
      (quiet_weigh dep x y t).1 (quiet_weigh dep x y t).2 (quiet_weigh dep' x y t').1
      (quiet_weigh dep' x y t').2⟩
  · obtain ⟨l, hl⟩ := checkDistance_eq_reject hin
    obtain ⟨l', hl'⟩ := checkDistance_eq_reject (c := builtIn (.ofFunc f) keep) (hsrc ▸ hdst ▸ hin)
    rw [hl, hl']
    exact fun _ _ hrel _ => ⟨⟨nofun, nofun⟩, A.rel_of_eq hrel rfl rfl rfl rfl⟩

/-- Asked in sessions that are the same but for their logs, both oracles report an examined pair or
neither does. -/
def Concurs (c c' : Checker) (a b : Loop) : Prop :=
  ∀ p ∈ c.pairs a b, Alongside .distinct (fun dep? dep?' => c.Told dep? ↔ c'.Told dep?')
    (c.oracle.depends p.1 p.2 true) (c'.oracle.depends p.1 p.2 true)

theorem agree_asking (ho : o.Faithful f) (ho' : o'.Faithful f)
    (h : (asking f keep o).Concurs (asking f keep o') a b) : Alongside .distinct Agree
      ((asking f keep o).checkDistances a b).run ((asking f keep o').checkDistances a b).run := by
  refine agree_forM (fun p _ => keeps_checkPair_asking ho p)
    (fun p _ => keeps_checkPair_asking ho' p) fun ⟨x, y⟩ hp => ?_
  rw [checkPair_asking, checkPair_asking, run_ask_bind, run_ask_bind]
  have hnames : Alongside .distinct (fun dep? dep?' => ((builtIn (.ofFunc f) keep).Told dep? ↔
      (builtIn (.ofFunc f) keep).Told dep?') ∧ (∀ dep, dep? = some dep → dep.src = x ∧ dep.dst = y) ∧
        ∀ dep, dep?' = some dep → dep.src = x ∧ dep.dst = y)
      (o.depends x y true) (o'.depends x y true) := fun t t' hrel hroom =>
    let ⟨hsame, hrel'⟩ := h (x, y) hp t t' hrel hroom
    ⟨⟨hsame, ho.names x y true t, ho'.names x y true t'⟩, hrel'⟩
  refine hnames.bind (fun dep? => (Concord.keeps_checkReport dep?).grows)
    (fun dep? => (Concord.keeps_checkReport dep?).grows) fun dep? dep?' ⟨hsame, hdep, hdep'⟩ => ?_
  by_cases hreport : (builtIn (.ofFunc f) keep).Told dep?
  · obtain ⟨dep', rfl, hm'⟩ := hsame.1 hreport
    obtain ⟨dep, rfl, hm⟩ := hreport
    rw [checkReport_eq rfl hm, checkReport_eq rfl hm', run_ask_bind, run_ask_bind]
    obtain ⟨hsrc, hdst⟩ := hdep dep rfl
    obtain ⟨hsrc', hdst'⟩ := hdep' dep' rfl
    exact alongside_write_bind (agree_checkDistance (Concord.distinct f) (hsrc.trans hsrc'.symm)
      (hdst.trans hdst'.symm)) _ _ _ _
  · rw [checkReport_eq_pure hreport, checkReport_eq_pure (mt hsame.2 hreport)]
    exact Inquiry.alongside_pure .rfl

theorem covers_ofTable {deps deps' : List Dependence}
    (h : ∀ dep ∈ deps, (builtIn (.ofFunc f) keep).matters dep →
      (builtIn (.ofFunc f) keep).Told (deps'.find? fun d => d.src = dep.src && d.dst = dep.dst)) :
    (asking f keep (.ofTable deps')).Covers (asking f keep (.ofTable deps)) a b := by
  rintro ⟨x, y⟩ - w t t' - - ⟨dep, hdep, hm⟩
  obtain ⟨rfl, rfl⟩ := (Oracle.faithful_ofTable (f := f) deps).names x y true t dep hdep
  exact h dep (List.mem_of_find?_eq_some hdep) hm

theorem concurs_relabel {g : Dependence → Dependence} (ho : o.Faithful f)
    (hg : ∀ dep, (g dep).kind = dep.kind) :
    (asking f keep o).Concurs (asking f keep (o.relabel g)) a b := by
  intro p _ t t' hrel _
  obtain ⟨hsame, hrel'⟩ := ho.steady (Concord.distinct f) p.1 p.2 true t t' hrel trivial
  refine ⟨?_, hrel'⟩
  have hmatters : ∀ dep, (asking f keep o).matters (g dep) = (asking f keep o).matters dep :=
    fun dep => by rw [matters, matters, hg]
  change (asking f keep o).Told (o.depends p.1 p.2 true t).1 ↔
    (asking f keep o).Told ((o.depends p.1 p.2 true t').1.map g)
  rw [hsame]
  cases (o.depends p.1 p.2 true t').1 with
  | none => simp [Told]
  | some dep => simp [Told, hmatters]

theorem ready_asking (hf : Shallow f f.forest) (ho : o.Faithful f) (hs : Ready f f.forest s) :
    Ready f f.forest (((asking f keep o).checkDistances a b).run s).2 :=
  (Alongside.fresh (alongside_asking (Concord.history hf) ho) hs).2.2

theorem passes_renamed {u : SymbolTable} (hw : f.WellFormed e) (hf : Shallow f f.forest)
    (hfree : f.OrderFree) (ho : o.Faithful f) (hs : Ready f f.forest s)
    (hn : s.symbols.names.Nodup) (hu : u.names.Nodup)
    (h : (((asking f keep o).checkDistances a b).run s).1 = .ok ()) :
    (((asking f keep o).checkDistances a b).run (.naming u)).1 = .ok () := by
  let run := ((asking f keep o).checkDistances a b).run
  have hfresh : (run s).1 = (run s.fresh).1 :=
    (Alongside.fresh (alongside_asking (Concord.history hf) ho) hs).1.eq
  have hmatch : Match False (· = ·) (run s.fresh).1 (run (.naming u)).1 :=
    Inquiry.renamed (P := fun _ _ => Match False (· = ·)) rfl rfl hn hu
      (alongside_asking (Concord.distinct f) ho)
      fun T T' hT hT' => alongside_asking (Concord.renamed hw hfree hT hT') ho
  rw [← hfresh, show (run s).1 = .ok () from h] at hmatch
  change (run (.naming u)).1 = .ok ()
  generalize (run (.naming u)).1 = v at hmatch ⊢
  cases hmatch
  rfl

/-- An oracle that reports more pairs rejects more: where the check of distances passes under `o'`,
it passes under an `o` whose reports `o'` covers. So it is with one engine, whichever oracle comes
first, and, as long as no description goes deeper than the engine looks, with two engines that use
one table of names, or any names if the multiplications of the function go through in any order of
the symbols or in none. For oracles that report the same pairs, whatever the particulars of the
reports, the check passes under both or neither. -/
theorem checkDistances_antitone (f : Func) (hv : f.verify = .ok ()) (keep : Bool) (a b : Loop)
    (ha : a ∈ f.forest.loops) (hb : b ∈ f.forest.loops) (o o' : Oracle) (ho : o.Faithful f)
    (ho' : o'.Faithful f) :
    let run := ((asking f keep o).checkDistances a b).run
    let run' := ((asking f keep o').checkDistances a b).run
    ((asking f keep o').Covers (asking f keep o) a b →
      (∀ s s', (run' s').2.Kept s ∨ (run s).2.Kept s' → (run' s').1 = .ok () →
        (run s).1 = .ok ()) ∧
      (Shallow f f.forest → ∀ s s', Ready f f.forest s → Ready f f.forest s' →
        (∃ u, (run s).2.symbols ≤ u ∧ (run' s').2.symbols ≤ u) ∨
          (f.OrderFree ∧ s.symbols.names.Nodup ∧ s'.symbols.names.Nodup) →
        (run' s').1 = .ok () → (run s).1 = .ok ())) ∧
    ((asking f keep o).Concurs (asking f keep o') a b → ∀ s, s.symbols.names.Nodup →
      ((run s).1 = .ok () ↔ (run' s).1 = .ok ())) := by
  intro run run'
  obtain ⟨e, hw⟩ := Func.wellFormed_of_verify hv
  refine ⟨fun hcov => ⟨fun s s' hkept h => ?_, fun hf s s' hs hs' hnames h => ?_⟩,
    fun hcon s hn => (agree_asking ho ho' hcon s s ⟨rfl, rfl, hn⟩ trivial).1⟩
  · obtain ⟨w, hend, hend'⟩ : ∃ w, Recalled f f.forest (run s).2 w ∧
        Recalled f f.forest (run' s').2 w := by
      rcases hkept with hkept | hkept
      · exact ⟨_, .of_kept (.refl _), .of_kept (hkept.trans (keeps_asking ho s))⟩
      · exact ⟨_, .of_kept (hkept.trans (keeps_asking ho' s')), .of_kept (.refl _)⟩
    exact passes_of_covers hw ha hb ho ho' hcov hend hend' h
  · have hshared : ∀ {s' : Session} {u : SymbolTable}, Ready f f.forest s' →
        (run s).2.symbols ≤ u → (run' s').2.symbols ≤ u → (run' s').1 = .ok () →
        (run s).1 = .ok () := fun {_ u} hs' hle hle' h =>
      have hu : Ready f f.forest (.naming u) := ready_of_nil rfl
      passes_of_covers hw ha hb ho ho' hcov ((ready_asking hf ho hs).recalled hf hu hle)
        ((ready_asking hf ho' hs').recalled hf hu hle') h
    rcases hnames with ⟨u, hle, hle'⟩ | ⟨hfree, hn, hn'⟩
    · exact hshared hs' hle hle' h
    · -- the other run is repeated with the names with which this one ends
      have hend : (run s).2.symbols.names.Nodup :=
        (alongside_asking (Concord.distinct f) ho s s ⟨rfl, rfl, hn⟩ trivial).2.2.2
      exact hshared (ready_of_nil rfl) (keeps_asking ho' (.naming (run s).2.symbols)).names
        (SymbolTable.le_refl _) (passes_renamed hw hf hfree ho' hs' hn' hend h)

/-- The second loop of `copyLoops` before the first: an engine with other names passes both of its
accesses, so a new one passes the store alone, whichever direction is reported. -/
theorem checkDistances_antitone_copyLoops : Func.copyLoops.verify = .ok () ∧
    ∃ a ∈ Func.copyLoops.forest.loops, ∃ b ∈ Func.copyLoops.forest.loops,
      let few := Oracle.ofTable [.atDistance ⟨16⟩ ⟨4⟩ .output 8]
      let flipped := few.relabel fun dep => { dep with direction := .gt }
      (((asking .copyLoops true few).checkDistances a b).run .start).1 = .ok () ∧
      (((asking .copyLoops true flipped).checkDistances a b).run .start).1 = .ok () := by
  let a := Func.copyLoops.forest.loops.get ⟨1, by rw [Func.length_copyLoops]; decide⟩
  let b := Func.copyLoops.forest.loops.get ⟨0, by rw [Func.length_copyLoops]; decide⟩
  let few := Oracle.ofTable [.atDistance ⟨16⟩ ⟨4⟩ .output 8]
  let many := Oracle.ofTable [.unresolved ⟨13⟩ ⟨4⟩ .anti false, .unresolved ⟨16⟩ ⟨4⟩ .output false]
  let flipped := few.relabel fun dep => { dep with direction := .gt }
  have hf : Shallow Func.copyLoops Func.copyLoops.forest :=
    shallow_of_ordered (by decide) (by decide +kernel) (by decide +kernel)
  have hfree : Func.copyLoops.OrderFree := Func.orderFree_of_plain (by decide +kernel)
  have hfew : few.Faithful .copyLoops := Oracle.faithful_ofTable _
  have hpass : (((asking .copyLoops true many).checkDistances a b).run (.naming ⟨["%B"]⟩)).1 = .ok () :=
    eq_ok_of_isOk (by decide +kernel)
  obtain ⟨hmore, -⟩ := checkDistances_antitone .copyLoops Func.verify_copyLoops true a b
    (List.get_mem _ _) (List.get_mem _ _) few many hfew (Oracle.faithful_ofTable _)
  have hok := (hmore (covers_ofTable (by decide +kernel))).2 hf .start (.naming ⟨["%B"]⟩)
    (ready_of_nil rfl) (ready_of_nil rfl) (.inr ⟨hfree, .nil, by decide⟩) hpass
  obtain ⟨-, hsame⟩ := checkDistances_antitone .copyLoops Func.verify_copyLoops true a b
    (List.get_mem _ _) (List.get_mem _ _) few flipped hfew (hfew.relabel fun _ => ⟨rfl, rfl⟩)
  exact ⟨Func.verify_copyLoops, a, List.get_mem _ _, b, List.get_mem _ _, hok,
    (hsame (concurs_relabel hfew fun _ => rfl) .start .nil).1 hok⟩

end Checker

open Build in
/-- The first loop stores eleven steps up a ladder of sums and at its top, which is 66 steps up; the
second loads at its foot. -/
def Func.highStores : Func := .build "f" do
  let a ← param "A" .ptr
  let n ← param "n" .int
  let step := fun (v : Value) (_ : Nat) => value (.binary .add v (.const 1))
  let low ← (List.range 11).foldlM step n
  let top ← (List.range 55).foldlM step low
  discard <| countedLoop "x" (.const 0) (.const 8) 1 fun i => do
    discard <| emit (.store (← value (.gep a (← value (.binary .add i low)))) (.const 7))
    discard <| emit (.store (← value (.gep a (← value (.binary .add i top)))) (.const 8))
  discard <| countedLoop "y" (.const 0) (.const 8) 1 fun j => do
    discard <| value (.load (← value (.gep a (← value (.binary .add j n)))))
  discard <| emit (.ret none)

theorem Func.length_highStores : highStores.forest.loops.length = 2 := by decide +kernel

namespace Checker

/-- A new engine that looks at both stores passes them: the address of the second rests on the sums
that are known from the first. One that looks at the second alone does not get to the foot of the
ladder. -/
theorem checkDistances_counts_highStores : Func.highStores.verify = .ok () ∧
    ∃ a ∈ Func.highStores.forest.loops, ∃ b ∈ Func.highStores.forest.loops,
      let few := Oracle.ofTable [.unresolved ⟨74⟩ ⟨84⟩ .flow false]
      let many := Oracle.ofTable
        [.unresolved ⟨71⟩ ⟨84⟩ .flow false, .unresolved ⟨74⟩ ⟨84⟩ .flow false]
      few.Faithful .highStores ∧ many.Faithful .highStores ∧
      (asking .highStores true many).Covers (asking .highStores true few) a b ∧
      (((asking .highStores true many).checkDistances a b).run .start).1 = .ok () ∧
      (((asking .highStores true few).checkDistances a b).run .start).1 ≠ .ok () := by
  have hv : Func.highStores.verify = .ok () := eq_ok_of_isOk (by decide +kernel)
  let a := Func.highStores.forest.loops.get ⟨0, by rw [Func.length_highStores]; decide⟩
  let b := Func.highStores.forest.loops.get ⟨1, by rw [Func.length_highStores]; decide⟩
  let few := Oracle.ofTable [.unresolved ⟨74⟩ ⟨84⟩ .flow false]
  let many := Oracle.ofTable
    [.unresolved ⟨71⟩ ⟨84⟩ .flow false, .unresolved ⟨74⟩ ⟨84⟩ .flow false]
  have hmany : (((asking .highStores true many).checkDistances a b).run .start).1 = .ok () :=
    eq_ok_of_isOk (by decide +kernel)
  have hfew : (((asking .highStores true few).checkDistances a b).run .start).1.isOk = false := by
    decide +kernel
  refine ⟨hv, a, List.get_mem _ _, b, List.get_mem _ _, Oracle.faithful_ofTable _,
    Oracle.faithful_ofTable _, covers_ofTable (by decide +kernel), hmany, fun h => ?_⟩
  change (((asking .highStores true few).checkDistances a b).run .start).1 = .ok () at h
  rw [h] at hfew
  cases hfew

end Checker

end LoopFusion
