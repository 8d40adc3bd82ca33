import LoopFusion.Proofs.Fusion.Questions
import LoopFusion.Proofs.Symbolic.Renaming
import LoopFusion.Proofs.Symbolic.Replay

/-!
Verdicts under two tables of names. The numbers of the names decide nothing, if every multiplication
goes through in any order of the symbols or in none.
-/

namespace LoopFusion

open Inquiry Describe

variable {f : Func} {e : BlockId} {T T' : SymbolTable}

/-! The names of a table stay distinct. -/

/-- The sessions are the same but for their logs, and no name has two numbers. -/
def Accord.distinct : Accord where
  rel s s' := s.symbols = s'.symbols ∧ s.memo = s'.memo ∧ s.symbols.names.Nodup
  room _ _ := True
  room_of_le _ _ _ := trivial
  rel_of_eq := by
    rintro s s' r r' ⟨hsym, hmemo, hnodup⟩ h hm h' hm'
    exact ⟨h.trans (hsym.trans h'.symm), hm.trans (hmemo.trans hm'.symm), h ▸ hnodup⟩

theorem alongside_unknown_distinct (v : Value) :
    Alongside .distinct (· = ·) (f.unknown v) (f.unknown v) := by
  rintro s s' ⟨hsym, hmemo, hnodup⟩ -
  have hname : ∀ r : Session, f.unknown v r = (.symbol (r.symbols.intern (f.symbolName v)).1,
      { r with symbols := (r.symbols.intern (f.symbolName v)).2 }) := fun _ => rfl
  rw [hname, hname, hsym]
  exact ⟨rfl, rfl, hmemo, SymbolTable.nodup_intern (hsym ▸ hnodup) _⟩

theorem recall_distinct : Recall .distinct fun _ _ => (· = ·) where
  hit h i scope := by
    rw [Session.remembered?, Session.remembered?, h.2.1]
    exact Poly.rel_rfl _
  remember := by
    rintro i scope x _ rfl s s' ⟨hsym, hmemo, hnodup⟩ _
    exact ⟨rfl, hsym, congrArg (((i, scope), x) :: ·) hmemo, hnodup⟩

theorem Concord.distinct (f : Func) : Concord f .distinct (· = ·) True :=
  .of_eq (alongside_value (likeness_eq alongside_unknown_distinct) recall_distinct _)
    alongside_unknown_distinct fun _ _ _ h => h.1

/-! Two tables. -/

theorem Concord.renamed (hw : f.WellFormed e) (hf : f.OrderFree) (hT : T.names.Nodup)
    (hT' : T'.names.Nodup) :
    Concord f (renamed f T T') (Poly.Renamed T.label T'.label) False where
  poly := Poly.congruence_renamed (SymbolTable.label_injective hT) (SymbolTable.label_injective hT')
  evolution v scope := (value_renamed hw hf hT hT' _ v scope).mono fun _ _ h => h.alike
  param k := (alongside_unknown_renamed (.param k)).mono fun _ _ ⟨_, _, hp, hp', hn, hn'⟩ =>
    hp ▸ hp' ▸ renamed_unknown hn hn'
  text := False.elim

theorem Check.Match.kind_eq {α : Type} {x y : Except Rejection α} (h : Match False (· = ·) x y) :
    x.mapError Rejection.kind = y.mapError Rejection.kind := by
  cases h with
  | ok h => rw [h]
  | error h => exact congrArg Except.error h.1

section

variable {α : Type} {P : SymbolTable → SymbolTable → α → α → Prop} {Q : α → α → Prop}
  {q : Inquiry α} {s s' : Session} {keep : Bool}

/-- Answers correspond under the tables with which the sessions end. -/
theorem Inquiry.renamed (hs : s.memo = []) (hs' : s'.memo = []) (hn : s.symbols.names.Nodup)
    (hn' : s'.symbols.names.Nodup) (hd : Alongside .distinct Q q q)
    (hq : ∀ T T', T.names.Nodup → T'.names.Nodup → Alongside (Describe.renamed f T T') (P T T') q q) :
    P (q s).2.symbols (q s').2.symbols (q s).1 (q s').1 := by
  have hnodup : ∀ {s : Session}, s.symbols.names.Nodup → (q s).2.symbols.names.Nodup := fun {s} hn =>
    (hd s s ⟨rfl, rfl, hn⟩ trivial).2.2.2
  have hrel : (Describe.renamed f (q s).2.symbols (q s').2.symbols).rel s s' := by
    intro i scope
    rw [Session.remembered?, Session.remembered?, hs, hs']
    exact .none
  exact (hq _ _ (hnodup hn) (hnodup hn') s s' hrel
    ⟨SymbolTable.le_refl _, SymbolTable.le_refl _⟩).1

end

/-- In a function whose multiplications go through in any order of the symbols or in none, the
numbers of the names decide nothing. Engines that start with different names, and are asked the same
questions, describe values and count trips by the same polynomials, up to the numbers of the names;
they report the same dependences and give verdicts of the same kind, and scans come to the same
plan. -/
theorem Engine.naming_irrelevant (f : Func) (hv : f.verify = .ok ()) (hf : f.OrderFree)
    (keep : Bool) (qs : List Question) (s s' : Session) (hs : s.memo = []) (hs' : s'.memo = [])
    (hn : s.symbols.names.Nodup) (hn' : s'.symbols.names.Nodup) :
    let c := Checker.builtIn (.ofFunc f) keep
    let t := (c.serve qs s).2
    let t' := (c.serve qs s').2
    (∀ v scope, (c.engine.evolution v scope t).1.Alike
      (Poly.Renamed (c.engine.evolution v scope t).2.symbols.label
        (c.engine.evolution v scope t').2.symbols.label) (c.engine.evolution v scope t').1) ∧
    (∀ l, Option.Rel (Poly.Renamed (c.engine.tripCount l t).2.symbols.label
      (c.engine.tripCount l t').2.symbols.label) (c.engine.tripCount l t).1
        (c.engine.tripCount l t').1) ∧
    (∀ x y same, (c.oracle.depends x y same t).1 = (c.oracle.depends x y same t').1) ∧
    (∀ a b, ((c.checkCandidate a b).verdict t).1.mapError Rejection.kind =
      ((c.checkCandidate a b).verdict t').1.mapError Rejection.kind) ∧
    ∀ config, (Pass.scan config f s).1.Alike (Pass.scan config f s').1 := by
  obtain ⟨e, hw⟩ := Func.wellFormed_of_verify hv
  have hd := Concord.distinct f
  have hc : ∀ {T T'}, T.names.Nodup → T'.names.Nodup →
      Concord f (renamed f T T') (Poly.Renamed T.label T'.label) False := Concord.renamed hw hf
  have hafter {α : Type} {q : Inquiry α} {Q : α → α → Prop}
      {P : SymbolTable → SymbolTable → α → α → Prop} (hgrow : q.Grows)
      (hq : Alongside .distinct Q q q)
      (hq' : ∀ T T', T.names.Nodup → T'.names.Nodup → Alongside (renamed f T T') (P T T') q q) :=
    Inquiry.renamed (f := f) (P := P) hs hs' hn hn' (hd.alongside_after keep qs hgrow hq)
      fun T T' hT hT' => (hc hT hT').alongside_after keep qs hgrow (hq' T T' hT hT')
  refine ⟨fun v scope => ?_, fun l => ?_, fun x y same => ?_, fun a b => ?_, fun config => ?_⟩
  · exact hafter (Describe.grows_value f f.forest _ v scope) (hd.evolution v scope)
      fun T T' hT hT' => (hc hT hT').evolution v scope
  · exact hafter (Describe.grows_tripCount f f.forest l) (hd.tripCount l)
      fun T T' hT hT' => (hc hT hT').tripCount l
  · exact hafter (Oracle.gathers_answer f f.forest x y same).grows (hd.answer x y same)
      fun T T' hT hT' => (hc hT hT').answer x y same
  · exact Check.Match.kind_eq <| hafter Concord.keeps_checkCandidate.grows hd.alongside_checkCandidate
      fun T T' hT hT' => (hc hT hT').alongside_checkCandidate
  · rw [Pass.scan_eq_search, Pass.scan_eq_search]
    exact Inquiry.renamed (f := f) (P := fun _ _ => Pass.Scan.Alike) (s := { s with memo := [] })
      rfl rfl hn hn' (Pass.alongside_search hd config)
      fun T T' hT hT' => Pass.alongside_search (hc hT hT') config

/-- Two loops that step through two arrays, `n` cells at a time. -/
def Func.scaledLoops : Func := .build "f" do
  let a ← Build.param "A" .ptr
  let b ← Build.param "B" .ptr
  let n ← Build.param "n" .int
  discard <| Build.countedLoop "x" (.const 0) n 1 fun i => do
    let x ← Build.value (.binary .mul i n)
    discard <| Build.emit (.store (← Build.value (.gep a x)) (.const 7))
  discard <| Build.countedLoop "y" (.const 0) n 1 fun j => do
    let y ← Build.value (.binary .mul n j)
    discard <| Build.emit (.store (← Build.value (.gep b y)) (.const 8))
  discard <| Build.emit (.ret none)

/-- The loops are fused whichever of the parameters is named first. -/
theorem Engine.naming_irrelevant_scaledLoops : Func.scaledLoops.verify = .ok () ∧
    Func.scaledLoops.OrderFree ∧ ["%B", "%n", "%A"].Nodup ∧
    (Pass.scan .standard .scaledLoops (.naming ⟨["%B", "%n", "%A"]⟩)).1.plan?.isSome := by
  have hv : Func.scaledLoops.verify = .ok () := eq_ok_of_isOk (by decide +kernel)
  have hf : Func.scaledLoops.OrderFree := Func.orderFree_of_plain (by decide +kernel)
  have hnames : ["%B", "%n", "%A"].Nodup := by decide
  obtain ⟨-, -, -, -, hscan⟩ := naming_irrelevant .scaledLoops hv hf true [] .start
    (.naming ⟨["%B", "%n", "%A"]⟩) rfl rfl .nil hnames
  refine ⟨hv, hf, hnames, ?_⟩
  rw [← (hscan .standard).plan?]
  decide +kernel

/-- `(x + y + 1) * (2^62 * (y + x * y) - x)`, where the last product on `x * y` makes up for the
overflow of the first two. -/
def Func.cancelling : Func := .build "f" do
  let x ← Build.param "x" .int
  let y ← Build.param "y" .int
  let sum ← Build.value (.binary .add y x)
  let p ← Build.value (.binary .add sum (.const 1))
  let xy ← Build.value (.binary .mul x y)
  let a ← Build.value (.binary .mul y (.const 4611686018427387904))
  let b ← Build.value (.binary .mul xy (.const 4611686018427387904))
  let c ← Build.value (.binary .sub a x)
  let q ← Build.value (.binary .add c b)
  let r ← Build.value (.binary .mul p q)
  discard <| Build.emit (.ret (some r))

/-- The product is known as a polynomial when `y` is named first, and as an unknown of its own when
`x` is. -/
theorem Engine.naming_counts_cancelling : Func.cancelling.verify = .ok () ∧
    let answer := fun names => Describe.value .cancelling Func.cancelling.forest (maxDepth + 1)
      (.inst ⟨7⟩) none (.naming ⟨names⟩)
    ¬ (answer []).1.Alike (Poly.Renamed (answer []).2.symbols.label
      (answer ["%x"]).2.symbols.label) (answer ["%x"]).1 := by
  have hv : Func.cancelling.verify = .ok () := eq_ok_of_isOk (by decide +kernel)
  refine ⟨hv, ?_⟩
  intro answer h
  have hlen : ((answer []).1.invariant?.map (·.terms.length),
      (answer ["%x"]).1.invariant?.map (·.terms.length)) = (some 7, some 1) := by decide +kernel
  generalize (answer []).1 = x at h hlen
  generalize (answer ["%x"]).1 = x' at h hlen
  cases h with
  | invariant hp =>
    obtain ⟨h, h'⟩ := Prod.mk.inj hlen
    exact absurd ((Option.some.inj h).symm.trans (hp.length_eq.trans (Option.some.inj h'))) (by decide)
  | recurrence => cases hlen
  | unknown => cases hlen

end LoopFusion
