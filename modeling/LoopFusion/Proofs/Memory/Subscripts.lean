import LoopFusion.Proofs.Memory.Conflict
import LoopFusion.Proofs.Symbolic.SoundCount

/-!
What the oracle finds out about two accesses holds on every run: the subscript of an access gives
its address on each round, and an answer that there is no dependence rests on subscripts that are
never equal.
-/

namespace LoopFusion

open Relation LoopFusion.Flow Inquiry

theorem Operation.accessesMemory_of_address? {op : Operation} {v : Value}
    (h : op.address? = some v) : op.accessesMemory := by
  cases op <;> first | rfl | cases h

theorem Operation.mem_operands_of_address? {op : Operation} {v : Value} (h : op.address? = some v) :
    v ∈ op.operands := by
  cases op <;> cases h <;> simp [operands]

/-! What the questions about accesses add to what is known. -/

namespace Subscript

theorem gathers_last (f : Func) (t : LoopForest) (scope : Option LoopId) :
    (last (.ofFunc f t) scope).Gathers := by
  cases scope with
  | none => exact gathers_pure _
  | some l => exact (Describe.gathers_tripCount f t l).bind fun _ => gathers_pure _

/-- The subscript of an address that evolves as `z`, in an array named `base`. -/
def ofEvolution (e : Engine) (scope : Option LoopId) (base : Poly) (z : Evolution) :
    Inquiry (Option Subscript) :=
  match parts? z with
  | none => return none
  | some (start, stride) =>
    match start.sub? base with
    | none => return none
    | some start => return some ⟨start, stride, ← last e scope⟩

theorem ofAccess_eq (f : Func) (t : LoopForest) (e : Engine) (x : InstId) : ofAccess f t e x =
    match (f.op? x).bind Operation.address? with
    | none => return none
    | some addr =>
      match f.basePointer? addr with
      | none => return none
      | some base =>
        f.unknown (.param base) >>= fun sym =>
          e.evolution addr ((f.owner? x).bind t.loopFor?) >>= fun z =>
            ofEvolution e ((f.owner? x).bind t.loopFor?) sym z :=
  rfl

theorem gathers_ofEvolution (f : Func) (t : LoopForest) (scope : Option LoopId) (base : Poly)
    (z : Evolution) : (ofEvolution (.ofFunc f t) scope base z).Gathers := by
  unfold ofEvolution
  split
  · exact gathers_pure _
  · split
    · exact gathers_pure _
    · exact (gathers_last f t _).bind fun _ => gathers_pure _

theorem gathers_ofAccess (f : Func) (t : LoopForest) (x : InstId) :
    (ofAccess f t (.ofFunc f t) x).Gathers := by
  rw [ofAccess_eq]
  split
  · exact gathers_pure _
  · split
    · exact gathers_pure _
    · exact (Describe.gathers_unknown f _).bind fun _ =>
        (Describe.gathers_value f t _ _ _).bind fun z => gathers_ofEvolution f t _ _ z

end Subscript

theorem Engine.gathers_resolve (f : Func) (t : LoopForest) (x : InstId) (l : LoopId) :
    ((ofFunc f t).resolve f x l).Gathers := by
  unfold resolve
  split
  · exact gathers_pure _
  · refine (Describe.gathers_value f t _ _ _).bind fun z => ?_
    cases z <;> exact gathers_pure _

theorem Oracle.gathers_answer (f : Func) (t : LoopForest) (x y : InstId) (same : Bool) :
    (answer f t (.ofFunc f t) x y same).Gathers := by
  have hway := way_answer f t (.ofFunc f t) x y same
  generalize answer f t (.ofFunc f t) x y same = q at hway ⊢
  cases hway with
  | apart => exact gathers_pure _
  | confused => exact gathers_pure _
  | compared =>
    refine (Subscript.gathers_ofAccess f t x).bind fun s? =>
      (Subscript.gathers_ofAccess f t y).bind fun d? => ?_
    cases s? <;> cases d? <;> exact gathers_pure _

namespace Func

variable {f : Func} {e : BlockId} {x y : InstId} {addr : Value} {k : Nat}

/-- The address that an access reads or writes. -/
def addressOf? (f : Func) (x : InstId) : Option Value := (f.op? x).bind Operation.address?

/-- The innermost loop around an instruction. -/
def scopeOf? (f : Func) (x : InstId) : Option LoopId := (f.owner? x).bind f.forest.loopFor?

/-- The address is an offset into the array parameter `k`. -/
inductive Rooted (f : Func) : Value → Nat → Prop
  | param {k : Nat} : f.paramType? k = some .ptr → Rooted f (.param k) k
  | gep {i : InstId} {base offset : Value} {k : Nat} :
    f.op? i = some (.gep base offset) → Rooted f base k → Rooted f (.inst i) k

theorem rooted_of_rootOf? {fuel : Nat} (h : f.rootOf? fuel addr = some k) : f.Rooted addr k := by
  induction fuel generalizing addr with
  | zero => cases h
  | succ fuel ih =>
    cases addr with
    | const c => cases h
    | param j =>
      obtain ⟨hj, h⟩ := Option.ite_none_right_eq_some.1 h
      exact Option.some.inj h ▸ .param hj
    | inst i =>
      rw [rootOf?] at h
      split at h
      · exact .gep ‹_› (ih h)
      · cases h

theorem Rooted.isPtr (h : f.Rooted addr k) : f.paramType? k = some .ptr := by
  induction h with
  | param hk => exact hk
  | gep _ _ ih => exact ih

theorem Rooted.isParam (h : f.Rooted addr k) : k < f.params.length := by
  obtain ⟨p, hp, -⟩ := Option.map_eq_some_iff.1 h.isPtr
  exact (List.getElem?_eq_some_iff.1 hp).1

theorem eval_of_parts? {ρ : Symbol → Int} {z : Evolution} {start stride : Poly} {k x : Int}
    (h : Subscript.parts? z = some (start, stride)) (hz : z.Holds ρ k x) :
    x = start.eval ρ + stride.eval ρ * k := by
  cases z with
  | invariant p =>
    obtain ⟨rfl, rfl⟩ := Prod.mk.inj (Option.some.inj h)
    rw [show x = _ from hz, Poly.eval_zero, zero_mul, add_zero]
  | recurrence p q l =>
    obtain ⟨rfl, rfl⟩ := Prod.mk.inj (Option.some.inj h)
    exact hz
  | unknown => cases h

theorem sameArray?_eq_some {src dst : Operation} {vx vy : Value} {same : Bool}
    (hx : src.address? = some vx) (hy : dst.address? = some vy)
    (h : Oracle.sameArray? f src dst = some same) : ∃ j k, f.basePointer? vx = some j ∧
      f.basePointer? vy = some k ∧ decide (j = k) = same := by
  simp only [Oracle.sameArray?, hx, hy, Option.bind_eq_bind, Option.bind_some,
    Option.bind_eq_some_iff, Option.pure_def, Option.some.injEq] at h
  obtain ⟨j, hj, k, hk, heq⟩ := h
  exact ⟨j, k, hj, hk, heq⟩

namespace Run

variable {args : List Int} {mem : Memory} {r : f.Run args mem} {m n : Nat} {ρ : Symbol → Int}
  {σ : SymbolTable} {scope : Option LoopId} {s d : Subscript} {a : Int}

/-- The subscript tells the address of `x` on each round, and how many rounds there are. -/
structure Located (r : f.Run args mem) (e : BlockId) (σ : SymbolTable) (x : InstId)
    (s : Subscript) : Prop where
  address : ∃ addr base, f.addressOf? x = some addr ∧ f.basePointer? addr = some base ∧
    ∀ n ρ, r.On n → f.InScope e (f.scopeOf? x) (r.block n) → f.Defined e (r.block n) addr →
      r.Agrees e σ ρ (f.scopeOf? x) n → addr.eval args (r.env n) =
        args[base]?.getD 0 + s.start.eval ρ + s.stride.eval ρ * r.turn (f.scopeOf? x) n
  last : ∀ last, s.last? = some last → ∃ l ∈ f.forest.loops, f.scopeOf? x = some l.id ∧
    ∃ p, f.Counted l p ∧ r.Sized e σ l p ∧ p.const? = some (last + 1)

section

variable (hw : f.WellFormed e)

include hw

theorem asks_last (hscope : ∀ id, scope = some id → ∃ l ∈ f.forest.loops, l.id = id) :
    Asks (Session.Honest f) σ (Subscript.last (.ofFunc f f.forest) scope) fun last? =>
      ∀ last, last? = some last → ∃ l ∈ f.forest.loops, scope = some l.id ∧
        ∃ p, f.Counted l p ∧ r.Sized e σ l p ∧ p.const? = some (last + 1) := by
  cases scope with
  | none => exact asks_pure nofun
  | some id =>
    obtain ⟨l, hl, rfl⟩ := hscope id rfl
    refine (asks_tripCount (r := r) hw hl).bind (fun _ => grows_pure _) fun count? hcount =>
      asks_pure fun last hlast => ?_
    obtain ⟨c, hc, rfl⟩ := Option.map_eq_some_iff.1 hlast
    obtain ⟨p, hp, hc⟩ := Option.bind_eq_some_iff.1 hc
    obtain ⟨hcounted, hsized⟩ := hcount p hp
    exact ⟨l, hl, rfl, p, hcounted, hsized, by rw [hc, sub_add_cancel]⟩

theorem exists_scopeOf {id : LoopId} (h : f.scopeOf? x = some id) :
    ∃ l ∈ f.forest.loops, l.id = id := by
  obtain ⟨b, -, hb⟩ := Option.bind_eq_some_iff.1 h
  obtain ⟨l, hl, hid, -⟩ := LoopForest.loopFor?_eq_some hw.inArena hw.entry hb
  exact ⟨l, hl, hid⟩

theorem asks_ofAccess (x : InstId) :
    Asks (Session.Honest f) σ (Subscript.ofAccess f f.forest (.ofFunc f f.forest) x) fun s? =>
      ∀ s, s? = some s → r.Located e σ x s := by
  rw [Subscript.ofAccess_eq]
  split
  case h_1 => exact asks_pure nofun
  case h_2 addr haddr =>
    split
    case h_1 => exact asks_pure nofun
    case h_2 base hbase =>
      refine (asks_unknown (fun _ _ => .named) _).bind (fun _ => ?_) fun sym hsym =>
        (answers_value (r := r) hw _ addr (f.scopeOf? x)).bind (fun z => ?_) fun z hz => ?_
      · exact (Describe.grows_value f f.forest _ addr _).bind fun z =>
          (Subscript.gathers_ofEvolution f f.forest _ _ z).grows
      · exact (Subscript.gathers_ofEvolution f f.forest _ _ z).grows
      · rw [Subscript.ofEvolution]
        split
        case h_1 => exact asks_pure nofun
        case h_2 start stride hparts =>
          split
          case h_1 => exact asks_pure nofun
          case h_2 offset hsub =>
            refine (asks_last (r := r) hw fun id hid => exists_scopeOf hw hid).bind
              (fun _ => grows_pure _) fun last? hlast => asks_pure ?_
            rintro s ⟨⟩
            refine ⟨⟨addr, base, haddr, hbase, fun n ρ hn hin hdef hρ => ?_⟩, hlast⟩
            obtain ⟨t, rfl, ht⟩ := hsym
            have hparam : ρ t = args[base]?.getD 0 :=
              hρ (.param base) t ⟨rfl, ⟨(rooted_of_rootOf? hbase).isParam, trivial⟩, nofun⟩ ht
            rw [eval_of_parts? hparts (hz n ρ hn hin hdef hρ), Poly.eval_sub hsub, Poly.eval_symbol,
              hparam]
            ring

theorem asks_resolve {l : LoopId} (x : InstId) :
    Asks (Session.Honest f) σ ((Engine.ofFunc f f.forest).resolve f x l) fun a? =>
      ∀ a, a? = some a → ∃ addr, f.addressOf? x = some addr ∧
        r.Right e σ (some l) addr (.recurrence a.start a.stride l) := by
  unfold Engine.resolve
  split
  case h_1 => exact asks_pure nofun
  case h_2 addr haddr =>
    refine (answers_value (r := r) hw _ addr (some l)).bind (fun z => ?_) fun z hz => ?_
    · cases z <;> exact grows_pure _
    · cases z with
      | recurrence s t l' =>
        refine asks_pure fun a ha => ?_
        obtain ⟨hl, ha⟩ := Option.ite_none_right_eq_some.1 ha
        obtain rfl := Option.some.inj ha
        exact ⟨addr, haddr, hl ▸ hz⟩
      | _ => exact asks_pure nofun

end

/-- What an answer that there is no dependence rests on. -/
def Separate (r : f.Run args mem) (e : BlockId) (σ : SymbolTable) (x y : InstId) : Prop :=
  ∀ vx vy, f.addressOf? x = some vx → f.addressOf? y = some vy →
    (∃ j k, f.basePointer? vx = some j ∧ f.basePointer? vy = some k ∧ j ≠ k) ∨
    (∃ k, f.basePointer? vx = some k ∧ f.basePointer? vy = some k) ∧
      ∃ s d, r.Located e σ x s ∧ r.Located e σ y d ∧ s.conflict d = .never

theorem asks_answer (hw : f.WellFormed e) (x y : InstId) :
    Asks (Session.Honest f) σ (Oracle.answer f f.forest (.ofFunc f f.forest) x y true) fun dep? =>
      dep? = none → r.Separate e σ x y := by
  have hway := Oracle.way_answer f f.forest (.ofFunc f f.forest) x y true
  generalize Oracle.answer f f.forest (.ofFunc f f.forest) x y true = q at hway ⊢
  cases hway with
  | apart hno =>
    refine asks_pure fun _ vx vy hx hy => .inl ?_
    obtain ⟨opx, hopx, hx⟩ := Option.bind_eq_some_iff.1 hx
    obtain ⟨opy, hopy, hy⟩ := Option.bind_eq_some_iff.1 hy
    have hsame := hno opx opy hopx hopy (Operation.accessesMemory_of_address? hx)
      (Operation.accessesMemory_of_address? hy)
    obtain ⟨j, k, hj, hk, hne⟩ := sameArray?_eq_some hx hy hsame
    exact ⟨j, k, hj, hk, of_decide_eq_false hne⟩
  | confused => exact asks_pure nofun
  | compared hopx hopy hsame =>
    refine (asks_ofAccess (r := r) hw x).bind (fun s? => ?_) fun s? hs =>
      (asks_ofAccess (r := r) hw y).bind (fun d? => ?_) fun d? hd => ?_
    · refine (Subscript.gathers_ofAccess f f.forest y).grows.bind fun d? => ?_
      cases s? <;> cases d? <;> exact grows_pure _
    · cases s? <;> cases d? <;> exact grows_pure _
    · split
      case h_1 s d =>
        refine asks_pure fun hnone vx vy hx hy => .inr ⟨?_, s, d, hs s rfl, hd d rfl, ?_⟩
        · rw [addressOf?, hopx, Option.bind_some] at hx
          rw [addressOf?, hopy, Option.bind_some] at hy
          obtain ⟨j, k, hj, hk, heq⟩ := sameArray?_eq_some hx hy hsame
          exact ⟨k, of_decide_eq_true heq ▸ hj, hk⟩
        · obtain hnever | ⟨⟨⟩, -⟩ := Oracle.report_eq_none hnone
          exact hnever
      case h_2 => exact asks_pure nofun

end Run

end Func

end LoopFusion
