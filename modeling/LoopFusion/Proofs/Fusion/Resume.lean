import LoopFusion.Proofs.Fusion.Course

/-!
Runs one after the other. Where a run stops for its budget the next one takes up its course, because
a look depends only on the function and on names that were given in the same order before.
-/

namespace LoopFusion

/-- At most so many fusions, or any number of them. -/
def FusionConfig.within (c : FusionConfig) (budget : Option Nat) : FusionConfig :=
  { c with maxFusions? := budget }

namespace Pass

variable {config config' : FusionConfig} {f f' f'' g : Func} {e : BlockId} {s s' : Session}
  {t t' t'' u w : SymbolTable} {done d : Nat} {looks looks' : List (Option FusionPlan)}
  {pairs pairs' : List FusedPair} {m n : Option Nat}

theorem look_congr (h : config.keepOutputs = config'.keepOutputs) :
    look config f t = look config' f t := by
  unfold look scan
  rw [h]

theorem look_idle (h : look config f t = (none, u)) : look config f u = (none, u) := by
  have hle : (look config f t).2 ≤ u := by
    rw [h]
    exact SymbolTable.le_refl u
  rw [look_again hle, h]

theorem looks_alike {x x' : Option FusionPlan} {v v' : SymbolTable}
    (h : look config f t = (x, v)) (h' : look config f t'' = (x', v')) (hle : t ≤ t'')
    (hw : t'' ≤ w) (hroom : v ≤ w) : x' = x ∧ v ≤ v' ∧ v' ≤ w := by
  have hlast : (look config f t).2 ≤ w := by rwa [h]
  have hbetween := look_between hle hw hlast
  rw [h, h'] at hbetween
  exact ⟨hbetween.1.symm, hbetween.2⟩

namespace Course

theorem grows (h : Course config done f t looks pairs f' t') : t ≤ t' := by
  have hlook : ∀ {f t x v}, look config f t = (x, v) → t ≤ v := by
    intro f t x v h
    have := look_grows config f t
    rwa [h] at this
  induction h with
  | spent => exact SymbolTable.le_refl _
  | idle _ h => exact hlook h
  | last _ h _ => exact hlook h
  | more _ h _ _ ih => exact SymbolTable.le_trans (hlook h) ih

theorem between (h : Course config done f t looks pairs f' t')
    (h' : Course config done f t'' looks' pairs' f'' u) (hle : t ≤ t'') (hw : t'' ≤ w)
    (hroom : t' ≤ w) : pairs' = pairs ∧ f'' = f' ∧ t' ≤ u ∧ u ≤ w := by
  induction h generalizing t'' looks' pairs' with
  | spent h =>
    cases h' with
    | spent => exact ⟨rfl, rfl, hle, hw⟩
    | idle hex | last hex | more hex => rw [h] at hex; cases hex
  | idle h hlook =>
    cases h' with
    | spent hex => rw [h] at hex; cases hex
    | idle _ hlook' => exact ⟨rfl, rfl, (looks_alike hlook hlook' hle hw hroom).2⟩
    | last _ hlook' | more _ hlook' => cases (looks_alike hlook hlook' hle hw hroom).1
  | last h hlook hr =>
    cases h' with
    | spent hex => rw [h] at hex; cases hex
    | idle _ hlook' => cases (looks_alike hlook hlook' hle hw hroom).1
    | last _ hlook' =>
      obtain ⟨hp, hle', hw'⟩ := looks_alike hlook hlook' hle hw hroom
      cases hp
      exact ⟨rfl, rfl, hle', hw'⟩
    | more _ _ hr' => rw [hr] at hr'; cases hr'
  | more h hlook hr hrest ih =>
    have hv := SymbolTable.le_trans hrest.grows hroom
    cases h' with
    | spent hex => rw [h] at hex; cases hex
    | idle _ hlook' => cases (looks_alike hlook hlook' hle hw hv).1
    | last _ _ hr' => rw [hr] at hr'; cases hr'
    | more _ hlook' _ hrest' =>
      obtain ⟨hp, hle', hw'⟩ := looks_alike hlook hlook' hle hw hv
      cases hp
      obtain ⟨hpairs, hfunc, hrest⟩ := ih hrest' hle' hw' hroom
      exact ⟨by rw [hpairs], hfunc, hrest⟩

theorem shift (h : Course config done f t looks pairs f' t')
    (hkeep : config.keepOutputs = config'.keepOutputs) (hrescan : config.rescan = config'.rescan)
    (hex : ∀ k, config'.exhausted (d + k) = config.exhausted (done + k)) :
    Course config' d f t looks pairs f' t' := by
  induction h generalizing d with
  | spent h => exact .spent ((hex 0).trans h)
  | idle h hlook => exact .idle ((hex 0).trans h) ((look_congr hkeep).symm.trans hlook)
  | last h hlook hr =>
    exact .last ((hex 0).trans h) ((look_congr hkeep).symm.trans hlook) (hrescan.symm.trans hr)
  | more h hlook hr _ ih =>
    refine .more ((hex 0).trans h) ((look_congr hkeep).symm.trans hlook) (hrescan.symm.trans hr)
      (ih fun k => ?_)
    rw [Nat.add_right_comm, Nat.add_right_comm _ 1]
    exact hex (k + 1)

theorem settled (h : Course config done f t looks pairs f' t') (hmax : config.maxFusions? = none)
    (hrescan : config.rescan = true) : look config f' t' = (none, t') := by
  induction h with
  | spent h => simp [FusionConfig.exhausted, hmax] at h
  | idle _ hlook => exact look_idle hlook
  | last _ _ hr => rw [hrescan] at hr; cases hr
  | more _ _ _ _ ih => exact ih

theorem eq_of_settled (h : Course config done f t looks pairs f' t')
    (hnone : look config f t = (none, t)) : pairs = [] ∧ f' = f ∧ t' = t := by
  cases h with
  | spent => exact ⟨rfl, rfl, rfl⟩
  | idle _ hlook =>
    rw [hnone] at hlook
    cases hlook
    exact ⟨rfl, rfl, rfl⟩
  | last _ hlook =>
    rw [hnone] at hlook
    cases hlook
  | more _ hlook =>
    rw [hnone] at hlook
    cases hlook

theorem exhausted_add {k : Nat} (h : (config.within m).exhausted k = false) :
    (∀ j, m = some j → k < j) ∧ (config.within (Option.map₂ (· + ·) m n)).exhausted k = false := by
  cases m with
  | none => exact ⟨nofun, rfl⟩
  | some j =>
    have hlt : k < j := by simpa [FusionConfig.exhausted, FusionConfig.within] using h
    refine ⟨fun j' hj => Option.some.inj hj ▸ hlt, ?_⟩
    cases n with
    | none => rfl
    | some i =>
      simp [FusionConfig.exhausted, FusionConfig.within]
      omega

theorem append (hrescan : config.rescan = true)
    (h : Course (config.within m) done f t looks pairs f' t')
    (h' : Course (config.within n) 0 f' t' looks' pairs' f'' t'')
    (hdone : ∀ k, m = some k → done ≤ k) : ∃ looks,
      Course (config.within (Option.map₂ (· + ·) m n)) done f t looks (pairs ++ pairs') f'' t'' := by
  generalize hc : config.within m = c at h
  induction h with
  | @spent done _ _ hex =>
    subst hc
    refine ⟨looks', h'.shift rfl rfl fun k => ?_⟩
    cases m with
    | none => simp [FusionConfig.exhausted, FusionConfig.within] at hex
    | some j =>
      have hj : j = done := Nat.le_antisymm
        (by simpa [FusionConfig.exhausted, FusionConfig.within] using hex) (hdone j rfl)
      cases n with
      | none => rfl
      | some i => simp [FusionConfig.exhausted, FusionConfig.within, hj]
  | idle hex hlook =>
    subst hc
    obtain ⟨rfl, rfl, rfl⟩ := h'.eq_of_settled ((look_congr rfl).trans (look_idle hlook))
    exact ⟨[none], .idle (exhausted_add hex).2 ((look_congr rfl).trans hlook)⟩
  | last _ _ hr =>
    subst hc
    rw [FusionConfig.within, hrescan] at hr
    cases hr
  | more hex hlook hr _ ih =>
    subst hc
    obtain ⟨looks, hrest⟩ := ih h' (fun k hk => (exhausted_add (n := n) hex).1 k hk)
    exact ⟨_, .more (exhausted_add hex).2 ((look_congr rfl).trans hlook) hr hrest⟩

end Course

/-- Runs one after the other, up to the first that reports no change. -/
inductive Repeats (config : FusionConfig) : Func → Session → Func → Session → Prop
  | idle {f : Func} {s : Session} {r : FusionReport} : (run config f s).1.result = .ok r →
    r.changed = false → Repeats config f s (run config f s).1.func (run config f s).2
  | again {f g : Func} {s u : Session} {r : FusionReport} : (run config f s).1.result = .ok r →
    r.changed = true → Repeats config (run config f s).1.func (run config f s).2 g u →
      Repeats config f s g u

theorem look_of_single {p : Option FusionPlan} (h : look .single f t = (p, u)) :
    look .standard f t = (p, u) := (look_congr rfl).trans h

/-- A run of one fusion at most: nothing is found, or it is the first step of a longer run. -/
theorem single_cases (hw : f.WellFormed e) (s : Session) : ∃ r,
    (run .single f s).1.result = .ok r ∧
      (r.changed = false ∧ look .standard f s.symbols = (none, (run .single f s).2.symbols) ∧
          (run .single f s).1.func = f ∨
        r.changed = true ∧ ∃ p a b, p.Accepted f e a b ∧
          look .standard f s.symbols = (some p, (run .single f s).2.symbols) ∧
          (run .single f s).1.func = p.fused f) := by
  obtain ⟨r, looks, h⟩ := exists_tells_run .single hw s
  refine ⟨r, h.result, ?_⟩
  have hchanged := h.changed
  have hcourse := h.course
  generalize (run .single f s).1.func = f' at hcourse ⊢
  generalize (run .single f s).2.symbols = t' at hcourse ⊢
  generalize r.fused = pairs at hchanged hcourse
  cases hcourse with
  | spent hex => cases hex
  | idle _ hlook => exact .inl ⟨hchanged, look_of_single hlook, rfl⟩
  | last _ hlook =>
    obtain ⟨a, b, hp⟩ := accepted_of_look hw hlook
    exact .inr ⟨hchanged, _, a, b, hp, look_of_single hlook, rfl⟩
  | more _ _ hr => cases hr

theorem exists_repeats (hw : f.WellFormed e) (s : Session) : ∃ g u, Repeats .single f s g u := by
  induction hlen : f.layout.length using Nat.strong_induction_on generalizing f s with
  | _ len ih =>
    obtain ⟨r, hr, ⟨hchanged, -, -⟩ | ⟨hchanged, p, a, b, hp, -, hfunc⟩⟩ := single_cases hw s
    · exact ⟨_, _, .idle hr hchanged⟩
    · have hless := FusionPlan.length_layout_fused hw hp.fits
      have hw' := FusionPlan.wellFormed_fused hw hp.fits hp.clean
      obtain ⟨g, u, hrest⟩ := ih _ (by omega) hw' (run .single f s).2 rfl
      exact ⟨g, u, .again hr hchanged (hfunc.symm ▸ hrest)⟩

/-- Repeated runs of one fusion at most take the course of an unlimited run. -/
theorem Repeats.course {s u : Session} (h : Repeats .single f s g u) (hw : f.WellFormed e) (done : Nat) :
    ∃ looks pairs, Course .standard done f s.symbols looks pairs g u.symbols := by
  induction h generalizing done with
  | @idle f s r hr hchanged =>
    obtain ⟨r', hr', ⟨-, hlook, hfunc⟩ | ⟨hchanged', -⟩⟩ := single_cases hw s
    · rw [hfunc]
      exact ⟨[none], [], .idle rfl hlook⟩
    · rw [hr] at hr'
      cases hr'
      rw [hchanged] at hchanged'
      cases hchanged'
  | @again f g s u r hr hchanged _ ih =>
    obtain ⟨r', hr', ⟨hchanged', -⟩ | ⟨-, p, a, b, hp, hlook, hfunc⟩⟩ := single_cases hw s
    · rw [hr] at hr'
      cases hr'
      rw [hchanged] at hchanged'
      cases hchanged'
    · rw [hfunc] at ih
      obtain ⟨looks, pairs, hrest⟩ :=
        ih (FusionPlan.wellFormed_fused hw hp.fits hp.clean) (done + 1)
      exact ⟨_, _, .more rfl hlook rfl hrest⟩

/-- A run in a session on the way from `s` to `u`, or later. -/
def Along (s u s' : Session) : Prop :=
  s.symbols ≤ s'.symbols ∧ (s'.symbols ≤ u.symbols ∨ u.symbols ≤ s'.symbols)

theorem Course.along {s u s' v : Session} (h : Course config done f s.symbols looks pairs f' u.symbols)
    (h' : Course config done f s'.symbols looks' pairs' f'' v.symbols) (ha : Along s u s') :
    pairs' = pairs ∧ f'' = f' := by
  obtain ⟨hle, hu | hu⟩ := ha
  · exact (h.between h' hle hu (SymbolTable.le_refl _)).imp_right And.left
  · exact (h.between h' hle (SymbolTable.le_refl _) hu).imp_right And.left

/-- A run on what another one has left. -/
def resume (config : FusionConfig) (before : Outcome × Session) : Outcome × Session :=
  run config before.1.func before.2

theorem exists_tells_resume (config : FusionConfig) (hw : f.WellFormed e) (m n : Option Nat)
    (s : Session) :
    ∃ r r' looks looks', Tells (config.within m) (.start f.name) f s.symbols
        (run (config.within m) f s) r looks r.fused ∧
      Tells (config.within n) (.start (run (config.within m) f s).1.func.name)
        (run (config.within m) f s).1.func (run (config.within m) f s).2.symbols
        (resume (config.within n) (run (config.within m) f s)) r' looks' r'.fused := by
  obtain ⟨r, looks, h⟩ := exists_tells_run (config.within m) hw s
  obtain ⟨r', looks', h'⟩ := exists_tells_run (config.within n) (h.course.wellFormed hw)
    (run (config.within m) f s).2
  exact ⟨r, r', looks, looks', h, h'⟩

/-- Two runs in a row leave what one run with both budgets leaves, and fuse the same pairs in the
same order, in whatever session of the same names the one run is. An unlimited run is not changed by
another one, and repeated runs of one fusion at most end where an unlimited run does. -/
theorem runs_compose (config : FusionConfig) (hrescan : config.rescan = true) (f : Func)
    (hv : f.verify = .ok ()) (m n : Option Nat) (s : Session) :
    (∃ r r', (run (config.within m) f s).1.result = .ok r ∧
      (resume (config.within n) (run (config.within m) f s)).1.result = .ok r' ∧
      (∀ s', Along s (resume (config.within n) (run (config.within m) f s)).2 s' →
        ∃ whole, (run (config.within (Option.map₂ (· + ·) m n)) f s').1.result = .ok whole ∧
          whole.fused = r.fused ++ r'.fused ∧
          (run (config.within (Option.map₂ (· + ·) m n)) f s').1.func =
            (resume (config.within n) (run (config.within m) f s)).1.func) ∧
      (m = none → r'.fused = [] ∧ r'.changed = false ∧
        (resume (config.within n) (run (config.within m) f s)).1.func =
          (run (config.within m) f s).1.func)) ∧
    (∃ g u, Repeats .single f s g u) ∧
    ∀ g u s', Repeats .single f s g u → Along s u s' → (run .standard f s').1.func = g := by
  obtain ⟨e, hw⟩ := Func.wellFormed_of_verify hv
  obtain ⟨r, r', looks, looks', h, h'⟩ := exists_tells_resume config hw m n s
  refine ⟨⟨r, r', h.result, h'.result, fun s' ha => ?_, fun hm => ?_⟩, exists_repeats hw s,
    fun g u s' hrepeats ha => ?_⟩
  · obtain ⟨whole, looks'', hwhole⟩ :=
      exists_tells_run (config.within (Option.map₂ (· + ·) m n)) hw s'
    obtain ⟨_, hboth⟩ := h.course.append hrescan h'.course fun k _ => Nat.zero_le k
    exact ⟨whole, hwhole.result, hboth.along hwhole.course ha⟩
  · have hsettled := h.course.settled hm hrescan
    obtain ⟨hfused, hfunc, -⟩ := h'.course.eq_of_settled ((look_congr rfl).trans hsettled)
    refine ⟨hfused, ?_, hfunc⟩
    rw [h'.changed, hfused]
    rfl
  · obtain ⟨whole, looks'', hwhole⟩ := exists_tells_run .standard hw s'
    obtain ⟨_, _, hcourse⟩ := hrepeats.course hw 0
    exact (hcourse.along hwhole.course ha).2

/-- A run that stops after one fusion and an unlimited one after it. -/
theorem runs_compose_twoLoops : FusionConfig.standard.rescan = true ∧
    Func.twoLoops.verify = .ok () ∧ (run .standard Func.twoLoops .start).1.func.layout.length = 6 ∧
    (resume .standard (run (FusionConfig.standard.within (some 1)) Func.twoLoops .start)).1.func =
      (run .standard Func.twoLoops .start).1.func := by
  obtain ⟨⟨r, r', -, -, hwhole, -⟩, -⟩ :=
    runs_compose .standard rfl Func.twoLoops Func.verify_twoLoops (some 1) none .start
  obtain ⟨whole, -, -, hfunc⟩ := hwhole .start
    ⟨SymbolTable.le_refl _, .inl (List.nil_prefix (l := SymbolTable.names _))⟩
  exact ⟨rfl, Func.verify_twoLoops, by decide +kernel, hfunc.symm⟩

end Pass

end LoopFusion
