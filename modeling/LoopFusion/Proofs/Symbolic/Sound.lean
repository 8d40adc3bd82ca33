import LoopFusion.Proofs.Semantics.Tests
import LoopFusion.Proofs.Symbolic.Likeness
import LoopFusion.Proofs.Symbolic.Meaning

/-!
What the engine answers about a value holds on every run, when unknowns stand for the values that
they are named after. A value before the scope is one such value; the induction variable of the
scope moves with its rounds; and arithmetic is arithmetic.
-/

namespace LoopFusion

open Relation LoopFusion.Flow

namespace Func

variable {f : Func} {e b d : BlockId} {scope : Option LoopId} {l : Loop} {v : Value} {i : InstId}

/-- The scope is a loop around `b`, or nothing in particular. -/
def InScope (f : Func) (e : BlockId) (scope : Option LoopId) (b : BlockId) : Prop :=
  ∀ id, scope = some id → ∃ l ∈ f.forest.loops, l.id = id ∧ f.InLoop e l.header b

theorem WellFormed.owner_eq (hw : f.WellFormed e) {entry : Inst} (hi : f.inst? i = some entry)
    (hd : d ∈ f.layout) (hid : i ∈ f.body d) : d = entry.block := by
  have hown := hw.owner d hd i hid
  rw [owner?, hi] at hown
  exact (Option.some.inj hown).symm

/-- A value with a name that control in `b` finds computed, and computed before the scope. -/
structure Fixed (f : Func) (e : BlockId) (scope : Option LoopId) (b : BlockId) (v : Value) : Prop
    where
  named : v.const? = none
  defined : f.Defined e b v
  before : ∀ i, v = .inst i → ∀ d ∈ f.layout, i ∈ f.body d →
    Describe.standing f.forest scope d = .before

theorem inScope_some (hl : l ∈ f.forest.loops) :
    f.InScope e (some l.id) b ↔ f.InLoop e l.header b := by
  constructor
  · intro h
    obtain ⟨m, hm, hid, hin⟩ := h l.id rfl
    rwa [← LoopForest.eq_of_id hm hl hid]
  · rintro h _ ⟨⟩
    exact ⟨l, hl, rfl, h⟩

theorem inScope_loopFor (hw : f.WellFormed e) (b : BlockId) :
    f.InScope e (f.forest.loopFor? b) b := by
  intro id hid
  obtain ⟨l, hl, hid, hin, -⟩ := LoopForest.loopFor?_eq_some hw.inArena hw.entry hid
  exact ⟨l, hl, hid, hin⟩

theorem not_inLoop_of_before (hw : f.WellFormed e) (hl : l ∈ f.forest.loops)
    (h : Describe.standing f.forest (some l.id) d = .before) : ¬ f.InLoop e l.header d := by
  have hf := hw.inArena
  have he := hw.entry
  intro hin
  unfold Describe.standing at h
  split at h
  case h_1 hnone => exact LoopForest.loopFor?_eq_none hf he hnone _ hin
  case h_2 m s hfor hs =>
    obtain rfl := Option.some.inj hs
    obtain ⟨p, hp, rfl, -, hall⟩ := LoopForest.loopFor?_eq_some hf he hfor
    split at h
    case isTrue => cases h
    case isFalse hne =>
      split at h
      case isTrue henc =>
        rw [LoopForest.encloses_iff hf he hl hp] at henc
        have hhead := henc.antisymm (hall _ hin)
        exact hne (congrArg Loop.id (LoopForest.eq_of_header hf he hp hl hhead))
      case isFalse => cases h
  case h_3 hs => cases hs

namespace Run

variable {args : List Int} {mem : Memory} {r : f.Run args mem} {m n : Nat} {ρ : Symbol → Int}
  {σ : SymbolTable} {x y : Evolution}

/-- The unknowns named by `σ` stand for the values before the scope, as they are on the `n`-th
visit. -/
def Agrees (r : f.Run args mem) (e : BlockId) (σ : SymbolTable) (ρ : Symbol → Int)
    (scope : Option LoopId) (n : Nat) : Prop :=
  ∀ v s, f.Fixed e scope (r.block n) v → σ.name? s = some (f.symbolName v) →
    ρ s = v.eval args (r.env n)

/-- The round of the scope. -/
def turn (r : f.Run args mem) (scope : Option LoopId) (n : Nat) : Nat :=
  (scope.bind f.forest.loop?).elim 0 fun l => r.round l n

/-- The evolution tells what the value is whenever control is in the scope. -/
def Right (r : f.Run args mem) (e : BlockId) (σ : SymbolTable) (scope : Option LoopId) (v : Value)
    (x : Evolution) : Prop :=
  ∀ n ρ, r.On n → f.InScope e scope (r.block n) → f.Defined e (r.block n) v →
    r.Agrees e σ ρ scope n → x.Holds ρ (r.turn scope n) (v.eval args (r.env n))

section Asks

variable {I : Session → Prop} {α β : Type} {q : Inquiry α} {g : α → Inquiry β} {P : α → Prop}
  {Q : β → Prop}

/-- From a session with `I` the question gets an answer with `P`, and it keeps `I`. The names that
it gives are names in `σ`. -/
def Asks (I : Session → Prop) (σ : SymbolTable) (q : Inquiry α) (P : α → Prop) : Prop :=
  ∀ s, I s → (q s).2.symbols ≤ σ → P (q s).1 ∧ I (q s).2

theorem asks_pure {a : α} (h : P a) : Asks I σ (pure a) P := fun _ hs _ => ⟨h, hs⟩

theorem Asks.bind (hq : Asks I σ q P) (hgrow : ∀ a, (g a).Grows)
    (hg : ∀ a, P a → Asks I σ (g a) Q) : Asks I σ (q >>= g) Q := by
  intro s hs hle
  obtain ⟨ha, hs'⟩ := hq s hs (SymbolTable.le_trans (hgrow _ _) hle)
  exact hg _ ha _ hs' hle

theorem Asks.of_eq {s s' : Session} {a : α} (hq : Asks I σ q P) (hs : I s) (h : q s = (a, s'))
    (hle : s'.symbols ≤ σ) : P a ∧ I s' := by
  have := hq s hs
  rw [h] at this
  exact this hle

theorem asks_unknown (hI : ∀ s s', I s → s'.memo = s.memo → s.symbols ≤ s'.symbols → I s')
    (v : Value) : Asks I σ (f.unknown v)
      fun p => ∃ s, p = .symbol s ∧ σ.name? s = some (f.symbolName v) :=
  fun s hs hle => ⟨⟨_, rfl, SymbolTable.name?_of_le hle (SymbolTable.name?_intern _ _)⟩,
    hI s _ hs rfl (SymbolTable.intern_le _ _)⟩

end Asks

end Run

end Func

namespace Describe

open Func.Run

variable {f : Func} {e : BlockId} {σ : SymbolTable} {scope : Option LoopId} {v : Value}
  {x y : Evolution} {i : InstId} {l : Loop}

theorem standing_within {t : LoopForest} {b : BlockId} {id : LoopId}
    (h : standing t scope b = .within id) : t.loopFor? b = some id ∧ scope = some id := by
  unfold standing at h
  split at h
  case h_1 => cases h
  case h_2 l s hfor =>
    split at h
    case isTrue hls =>
      obtain rfl := Standing.within.inj h
      exact ⟨hfor, by rw [hls]⟩
    case isFalse => split at h <;> cases h
  case h_3 => cases h

/-- The ways to an answer about a value in a scope, with the names in `σ`. -/
inductive Gives (f : Func) (σ : SymbolTable) (scope : Option LoopId) : Value → Evolution → Prop
  | const (c : Int64) : Gives f σ scope (.const c) (.invariant (.const c.toInt))
  | unknown (v : Value) : Gives f σ scope v .unknown
  | symbol {v : Value} {s : Symbol} : σ.name? s = some (f.symbolName v) → v.const? = none →
    (∀ i, v = .inst i → ∀ d ∈ f.layout, i ∈ f.body d → standing f.forest scope d = .before) →
      Gives f σ scope v (.invariant (.symbol s))
  | binary {i : InstId} {op : BinaryOp} {lhs rhs : Value} {x y : Evolution} :
    f.op? i = some (.binary op lhs rhs) → Gives f σ scope lhs x → Gives f σ scope rhs y →
      Gives f σ scope (.inst i) (.apply op x y)
  | gep {i : InstId} {base offset : Value} {x y : Evolution} :
    f.op? i = some (.gep base offset) → Gives f σ scope base x → Gives f σ scope offset y →
      Gives f σ scope (.inst i) (x.add y)
  | phi {l : Loop} {iv : InductionVariable} {start : Poly} : l ∈ f.forest.loops →
    scope = some l.id → l.iv? = some iv → Gives f σ scope iv.start (.invariant start) →
      Gives f σ scope (.inst iv.phi) (.recur start (.const iv.step) l.id)

theorem Gives.scope_eq (h : Gives f σ scope v x) {id : LoopId} (hx : x.loop? = some id) :
    scope = some id := by
  induction h with
  | const => cases hx
  | unknown => cases hx
  | symbol => cases hx
  | binary _ _ _ ihl ihr => exact (Evolution.loop?_apply hx).elim ihl ihr
  | gep _ _ _ ihl ihr => exact (Evolution.loop?_add hx).elim ihl ihr
  | phi _ hscope _ _ _ => rw [hscope, Evolution.loop?_recur hx]

/-- All that the session remembers can be answered. -/
def Faithful (f : Func) (σ : SymbolTable) (s : Session) : Prop :=
  ∀ i scope x, s.remembered? i scope = some x → Gives f σ scope (.inst i) x

theorem Faithful.named {s s' : Session} (h : Faithful f σ s) (hm : s'.memo = s.memo)
    (_ : s.symbols ≤ s'.symbols) : Faithful f σ s' := by
  intro i scope x hx
  rw [Session.remembered?, hm] at hx
  exact h i scope x hx

theorem Faithful.remember {s : Session} (h : Faithful f σ s) (hx : Gives f σ scope (.inst i) x) :
    Faithful f σ (Inquiry.remember i scope x s).2 := by
  intro j scope' y hy
  obtain ⟨rfl, rfl, rfl⟩ | hy := Inquiry.of_remembered?_remember hy
  · exact hx
  · exact h j scope' y hy

theorem gives_symbol (hw : f.WellFormed e) {n : Symbol} (hv : v.const? = none)
    (hbefore : ∀ i, v = .inst i → ∃ entry, f.inst? i = some entry ∧
      standing f.forest scope entry.block = .before) (hn : σ.name? n = some (f.symbolName v)) :
    Gives f σ scope v (.invariant (.symbol n)) := by
  refine .symbol hn hv fun i hi d hd hid => ?_
  obtain ⟨entry, hentry, hst⟩ := hbefore i hi
  rwa [hw.owner_eq hentry hd hid]

theorem gives_phi {b : BlockId} {id : LoopId} {iv : InductionVariable} {p : Poly}
    (hst : standing f.forest scope b = .within id) (hiv : (f.forest.loop? id).bind (·.iv?) = some iv)
    (hphi : iv.phi = i) (hp : Gives f σ scope iv.start (.invariant p)) :
    Gives f σ scope (.inst i) (.recur p (.const iv.step) id) := by
  obtain ⟨l, hl, hcount⟩ := Option.bind_eq_some_iff.1 hiv
  obtain ⟨hmem, rfl⟩ := LoopForest.mem_of_loop? hl
  exact hphi ▸ .phi hmem (standing_within hst).2 hcount hp

/-- One session beside itself, with answers that can be given and names in `σ`. -/
def faithful (f : Func) (σ : SymbolTable) : Accord where
  rel s s' := s.symbols = s'.symbols ∧ s.memo = s'.memo ∧ Faithful f σ s
  room u _ := u ≤ σ
  room_of_le h _ hroom := SymbolTable.le_trans h hroom
  rel_of_eq := by
    rintro s s' r r' ⟨hsym, hmemo, hs⟩ h hm h' hm'
    exact ⟨h.trans (hsym.trans h'.symm), hm.trans (hmemo.trans hm'.symm),
      hs.named hm (h ▸ SymbolTable.le_refl _)⟩

theorem likeness_faithful (hw : f.WellFormed e) : Likeness f f.forest (faithful f σ) (· = ·)
    fun scope v x x' => x = x' ∧ Gives f σ scope v x where
  alike := by rintro _ _ x _ ⟨rfl, -⟩; exact .refl x
  const _ c := ⟨rfl, .const c⟩
  unknown _ v := ⟨rfl, .unknown v⟩
  symbol := by
    rintro scope v hv hbefore s s' ⟨hsym, hmemo, hs⟩ hroom
    have hname : σ.name? (s.symbols.intern (f.symbolName v)).1 = some (f.symbolName v) :=
      SymbolTable.name?_of_le hroom (SymbolTable.name?_intern _ _)
    have heq : s.symbols.intern (f.symbolName v) = s'.symbols.intern (f.symbolName v) := by
      rw [hsym]
    have hfst : (s.symbols.intern (f.symbolName v)).1 = (s'.symbols.intern (f.symbolName v)).1 :=
      congrArg Prod.fst heq
    exact ⟨⟨congrArg (fun n : Symbol => Evolution.invariant (.symbol n)) hfst,
      gives_symbol hw hv hbefore hname⟩, congrArg Prod.snd heq, hmemo,
      hs.named rfl (SymbolTable.intern_le _ _)⟩
  binary := by
    rintro _ _ _ _ _ _ _ _ _ hop ⟨rfl, hx⟩ ⟨rfl, hy⟩
    exact ⟨rfl, .binary hop hx hy⟩
  gep := by
    rintro _ _ _ _ _ _ _ _ hop ⟨rfl, hx⟩ ⟨rfl, hy⟩
    exact ⟨rfl, .gep hop hx hy⟩
  phi := by
    rintro _ _ _ _ _ _ _ _ hst hiv hphi ⟨⟨⟩, hp⟩
    exact ⟨rfl, gives_phi hst hiv hphi hp⟩

theorem recall_faithful :
    Recall (faithful f σ) fun scope v x x' => x = x' ∧ Gives f σ scope v x where
  hit := by
    rintro s s' ⟨-, hmemo, hs⟩ i scope
    have heq : s.remembered? i scope = s'.remembered? i scope := by
      rw [Session.remembered?, Session.remembered?, hmemo]
    rw [← heq]
    cases hx : s.remembered? i scope with
    | none => exact .none
    | some x => exact .some ⟨rfl, hs i scope x hx⟩
  remember := by
    rintro i scope x _ ⟨rfl, hx⟩ s s' ⟨hsym, hmemo, hs⟩ -
    exact ⟨rfl, hsym, congrArg (((i, scope), x) :: ·) hmemo, hs.remember hx⟩

theorem asks_value (hw : f.WellFormed e) (budget : Nat) (v : Value) (scope : Option LoopId) :
    Asks (Faithful f σ) σ (value f f.forest budget v scope) (Gives f σ scope v) := by
  intro s hs hle
  obtain ⟨⟨-, hx⟩, -, -, hs'⟩ := alongside_value (likeness_faithful hw) recall_faithful budget v
    scope s s ⟨rfl, rfl, hs⟩ hle
  exact ⟨hx, hs'⟩

end Describe

/-- A session in which only the engine of `f` has given answers. -/
inductive Session.Honest (f : Func) : Session → Prop
  | fresh {s : Session} : s.memo = [] → Honest f s
  | asked {s : Session} (budget : Nat) (v : Value) (scope : Option LoopId) :
    Honest f s → Honest f (Describe.value f f.forest budget v scope s).2
  | named {s s' : Session} :
    Honest f s → s'.memo = s.memo → s.symbols ≤ s'.symbols → Honest f s'

theorem Session.Honest.faithful {f : Func} {e : BlockId} {s : Session} {σ : SymbolTable}
    (hw : f.WellFormed e) (h : s.Honest f) (hle : s.symbols ≤ σ) : Describe.Faithful f σ s := by
  induction h with
  | fresh hm =>
    intro i scope x hx
    rw [Session.remembered?, hm] at hx
    cases hx
  | asked budget v scope _ ih =>
    have hle' := SymbolTable.le_trans (Describe.grows_value f f.forest budget v scope _) hle
    exact (Describe.asks_value hw budget v scope _ (ih hle') hle).2
  | named _ hm hs ih => exact (ih (SymbolTable.le_trans hs hle)).named hm hs

namespace Func

variable {f : Func} {e : BlockId} {scope : Option LoopId} {l : Loop} {v : Value} {i : InstId}

namespace Run

variable {args : List Int} {mem : Memory} {r : f.Run args mem} {σ : SymbolTable} {x y : Evolution}

theorem answers_gives (hw : f.WellFormed e) (budget : Nat) (v : Value) (scope : Option LoopId) :
    Asks (Session.Honest f) σ (Describe.value f f.forest budget v scope)
      (Describe.Gives f σ scope v) := fun s hs hle =>
  ⟨(Describe.asks_value hw budget v scope s (hs.faithful hw (SymbolTable.le_trans
    (Describe.grows_value f f.forest budget v scope s) hle)) hle).1, hs.asked budget v scope⟩

section

variable (hw : f.WellFormed e)

include hw

omit hw in
theorem right_const (c : Int64) : r.Right e σ scope (.const c) (.invariant (.const c.toInt)) := by
  intro n ρ _ _ _ _
  exact (Poly.eval_const _).symm

omit hw in
theorem right_unknown (v : Value) : r.Right e σ scope v .unknown := fun _ _ _ _ _ _ => trivial

omit hw in
theorem right_symbol {s : Symbol} (hs : σ.name? s = some (f.symbolName v))
    (hnamed : v.const? = none) (hb : ∀ i, v = .inst i → ∀ d ∈ f.layout, i ∈ f.body d →
      Describe.standing f.forest scope d = .before) :
    r.Right e σ scope v (.invariant (.symbol s)) := by
  intro n ρ _ _ hv hρ
  exact (hρ v s ⟨hnamed, hv, hb⟩ hs).symm.trans (Poly.eval_symbol s).symm

theorem right_fold {op : Operation} {lhs rhs : Value} (hop : f.op? i = some op)
    (hphi : ¬ op.isPhi) (hops : op.operands = [lhs, rhs])
    (hl : r.Right e σ scope lhs x) (hr : r.Right e σ scope rhs y) {z : Evolution}
    (hz : ∀ ρ k (val : Value → Int), x.Holds ρ k (val lhs) → y.Holds ρ k (val rhs) →
      ∃ c, op.fold? val = some c ∧ z.Holds ρ k c) : r.Right e σ scope (.inst i) z := by
  intro n ρ hn hscope hv hρ
  obtain ⟨-, d, hd, hi, hdom⟩ := hv
  have hdef : ∀ v ∈ op.operands, f.Defined e (r.block n) v := fun v hv =>
    (hw.defined_operand hd hdom.reach_left hi hop hphi hv).trans hdom
  obtain ⟨c, hc, hz⟩ := hz ρ _ (Value.eval args (r.env n))
    (hl n ρ hn hscope (hdef lhs (by simp [hops])) hρ)
    (hr n ρ hn hscope (hdef rhs (by simp [hops])) hρ)
  rw [Value.eval, env_fold? hw hn hd hi hop hdom hc]
  exact hz

/-- The phi of the induction variable moves by its step on every round. -/
theorem right_phi {iv : InductionVariable} {start : Poly} (hl : l ∈ f.forest.loops)
    (hiv : l.iv? = some iv) (hstart : r.Right e σ (some l.id) iv.start (.invariant start)) :
    r.Right e σ (some l.id) (.inst iv.phi) (.recur start (.const iv.step) l.id) := by
  obtain ⟨pre, latch, hc⟩ := LoopForest.exists_counting hw hl hiv
  intro n ρ hn hin hv hρ
  rw [inScope_some hl] at hin
  have hstart := hstart n ρ hn ((inScope_some hl).2 hin)
    ((hc.start_defined hw).trans ((hc.dom_pre hw).trans hin.dom)) hρ
  refine Evolution.holds_recur ?_
  rw [Value.eval, hc.env_phi hw hl hn hin, hstart, Poly.eval_const, turn, Option.bind_some,
    LoopForest.loop?_id hl, Option.elim_some]

/-- Whatever way the engine comes to an answer, the answer is right. -/
theorem right_of_gives (h : Describe.Gives f σ scope v x) : r.Right e σ scope v x := by
  induction h with
  | const c => exact right_const c
  | unknown v => exact right_unknown v
  | symbol hs hnamed hb => exact right_symbol hs hnamed hb
  | @binary i op lhs rhs x y hop _ _ hx hy =>
    refine right_fold hw hop Bool.false_ne_true rfl hx hy fun ρ k val hx hy => ⟨_, rfl, ?_⟩
    cases op with
    | add => exact hx.add hy
    | sub => exact hx.sub hy
    | mul => exact hx.mul hy
  | gep hop _ _ hx hy =>
    exact right_fold hw hop Bool.false_ne_true rfl hx hy fun ρ k val hx hy => ⟨_, rfl, hx.add hy⟩
  | phi hl hscope hiv _ hstart =>
    subst hscope
    exact right_phi hw hl hiv hstart

end

/-- What an honest engine answers is right. -/
theorem answers_value (hw : f.WellFormed e) (budget : Nat) (v : Value) (scope : Option LoopId) :
    Asks (Session.Honest f) σ (Describe.value f f.forest budget v scope) (r.Right e σ scope v) :=
  fun s hs hle => by
    have h := answers_gives hw budget v scope s hs hle
    exact ⟨right_of_gives hw h.1, h.2⟩

end Run

end Func

/-! Names that tell values apart. -/

namespace Func

variable {f : Func} {e : BlockId} {v : Value} {σ : SymbolTable}

/-- The parameters and the live results. -/
def values (f : Func) : List Value :=
  (List.range f.params.length).map .param ++ (f.liveInsts.filter f.hasResult).map .inst

/-- No two different values share a name. -/
def DistinctNames (f : Func) : Prop := (f.values.map f.symbolName).Nodup

instance (f : Func) : Decidable f.DistinctNames := inferInstanceAs (Decidable (List.Nodup _))

theorem mem_values (h : f.Usable v) (hn : v.const? = none) : v ∈ f.values := by
  rw [values, List.mem_append, List.mem_map, List.mem_map]
  cases v with
  | const c => cases hn
  | param k => exact .inl ⟨k, List.mem_range.2 h, rfl⟩
  | inst i =>
    obtain ⟨⟨b, k⟩, hp⟩ := Option.isSome_iff_exists.1 h.1
    obtain ⟨hb, hi⟩ := mem_of_placeOf? hp
    exact .inr ⟨i, List.mem_filter.2 ⟨List.mem_flatMap.2 ⟨b, hb, hi⟩, h.2⟩, rfl⟩

/-- Unknowns can stand for the values that they are named after. -/
theorem DistinctNames.exists_valuation (h : f.DistinctNames) {P Q : Value → Prop}
    {x y : Value → Int} (hP : ∀ v, P v → v ∈ f.values) (hQ : ∀ v, Q v → v ∈ f.values)
    (hxy : ∀ v, P v → Q v → x v = y v) :
    ∃ ρ : Symbol → Int, ∀ v s, σ.name? s = some (f.symbolName v) →
      (P v → ρ s = x v) ∧ (Q v → ρ s = y v) := by
  have hinj : ∀ u v, u ∈ f.values → v ∈ f.values → f.symbolName u = f.symbolName v → u = v :=
    fun u v hu hv => List.inj_on_of_nodup_map h hu hv
  have hex : ∀ s, ∃ c : Int, ∀ v, σ.name? s = some (f.symbolName v) →
      (P v → c = x v) ∧ (Q v → c = y v) := by
    intro s
    by_cases hs : ∃ v ∈ f.values, σ.name? s = some (f.symbolName v)
    · obtain ⟨v, hv, hs⟩ := hs
      have heq : ∀ u, σ.name? s = some (f.symbolName u) → u ∈ f.values → u = v := fun u hu hm =>
        hinj u v hm hv (Option.some.inj (hu.symm.trans hs))
      by_cases hp : P v
      · refine ⟨x v, fun u hu => ⟨fun h => ?_, fun h => ?_⟩⟩
        · rw [heq u hu (hP u h)]
        · obtain rfl := heq u hu (hQ u h)
          exact hxy u hp h
      · refine ⟨y v, fun u hu => ⟨fun h => ?_, fun h => ?_⟩⟩
        · exact absurd (heq u hu (hP u h) ▸ h) hp
        · rw [heq u hu (hQ u h)]
    · refine ⟨0, fun u hu => ⟨fun h => ?_, fun h => ?_⟩⟩
      · exact absurd ⟨u, hP u h, hu⟩ hs
      · exact absurd ⟨u, hQ u h, hu⟩ hs
  choose ρ hρ using hex
  exact ⟨ρ, fun v s => hρ s v⟩

end Func

end LoopFusion
