import LoopFusion.Fusion.Legality
import LoopFusion.Proofs.Symbolic.Gathered

/-!
One question put to two sessions that have something in common. The answers correspond, and what the
sessions had in common they keep.
-/

namespace LoopFusion

/-- What two sessions have in common, and the tables of names that they may end with. The log does
not matter. -/
structure Accord where
  rel : Session → Session → Prop
  room : SymbolTable → SymbolTable → Prop
  room_of_le : ∀ {t t' u u'}, t ≤ u → t' ≤ u' → room u u' → room t t'
  rel_of_eq : ∀ {s s' r r' : Session}, rel s s' → r.symbols = s.symbols → r.memo = s.memo →
    r'.symbols = s'.symbols → r'.memo = s'.memo → rel r r'

namespace Inquiry

variable {A : Accord} {α β γ δ : Type} {P : α → β → Prop} {Q : γ → δ → Prop} {q : Inquiry α}
  {q' : Inquiry β} {g : α → Inquiry γ} {g' : β → Inquiry δ}

/-- The answers are related by `P`, and the sessions stay in accord, unless a table outgrows its
room. -/
def Alongside (A : Accord) (P : α → β → Prop) (q : Inquiry α) (q' : Inquiry β) : Prop :=
  ∀ s s', A.rel s s' → A.room (q s).2.symbols (q' s').2.symbols →
    P (q s).1 (q' s').1 ∧ A.rel (q s).2 (q' s').2

theorem alongside_pure {a : α} {b : β} (h : P a b) : Alongside A P (pure a) (pure b) :=
  fun _ _ hrel _ => ⟨h, hrel⟩

theorem Alongside.bind (hq : Alongside A P q q') (hgrow : ∀ a, (g a).Grows)
    (hgrow' : ∀ b, (g' b).Grows) (hg : ∀ a b, P a b → Alongside A Q (g a) (g' b)) :
    Alongside A Q (q >>= g) (q' >>= g') := by
  intro s s' hrel hroom
  obtain ⟨hP, hrel'⟩ := hq s s' hrel (A.room_of_le (hgrow _ _) (hgrow' _ _) hroom)
  exact hg _ _ hP _ _ hrel' hroom

theorem Alongside.bind_same {P : α → α → Prop} {Q : γ → γ → Prop} {q q' : Inquiry α}
    (hq : Alongside A P q q') (hgrow : ∀ a, (g a).Grows)
    (hg : ∀ a b, P a b → Alongside A Q (g a) (g b)) : Alongside A Q (q >>= g) (q' >>= g) :=
  hq.bind hgrow hgrow hg

theorem Alongside.bind₂ {ε : Type} {q₂ : Inquiry β} {P : α → α → Prop} {P₂ : β → β → Prop}
    {Q : ε → ε → Prop} {q : Inquiry α} {g : α → β → Inquiry ε} (hq : Alongside A P q q)
    (hq₂ : Alongside A P₂ q₂ q₂) (hgrow₂ : q₂.Grows) (hgrow : ∀ a b, (g a b).Grows)
    (hg : ∀ a a' b b', P a a' → P₂ b b' → Alongside A Q (g a b) (g a' b')) :
    Alongside A Q (do g (← q) (← q₂)) (do g (← q) (← q₂)) :=
  hq.bind_same (fun a => hgrow₂.bind (hgrow a)) fun a a' ha =>
    hq₂.bind (hgrow a) (hgrow a') fun b b' hb => hg a a' b b' ha hb

theorem Alongside.mono {P' : α → β → Prop} (hq : Alongside A P q q') (h : ∀ a b, P a b → P' a b) :
    Alongside A P' q q' := fun s s' hrel hroom =>
  (hq s s' hrel hroom).imp_left (h _ _)

theorem grows_write (level : Level) (origin : Origin) (m : String) :
    (write level origin m).Grows := fun _ => SymbolTable.le_refl _

theorem grows_forget : forget.Grows := fun _ => SymbolTable.le_refl _

theorem alongside_write_bind {g : Unit → Inquiry γ} {g' : Unit → Inquiry δ}
    (hg : Alongside A Q (g ()) (g' ())) (level : Level) (origin : Origin) (m m' : String) :
    Alongside A Q (write level origin m >>= g) (write level origin m' >>= g') :=
  fun _ _ hrel hroom => hg _ _ (A.rel_of_eq hrel rfl rfl rfl rfl) hroom

end Inquiry

/-- Rejections of one kind; the same rejection if the wording counts. -/
def Rejection.Alike (wording : Prop) (r r' : Rejection) : Prop :=
  r.kind = r'.kind ∧ (wording → r = r')

theorem Rejection.Alike.refl {wording : Prop} (r : Rejection) : r.Alike wording r :=
  ⟨rfl, fun _ => rfl⟩

namespace Check

variable {A : Accord} {wording : Prop} {α β γ δ : Type} {P : α → β → Prop} {Q : γ → δ → Prop}
  {c : Check α} {c' : Check β} {g : α → Check γ} {g' : β → Check δ} {r r' : Rejection} {a : α}
  {b : β}

theorem run_bind (c : Check α) (g : α → Check γ) : (c >>= g).run = c.run >>= fun
    | .ok a => (g a).run
    | .error r => pure (.error r) := by
  rw [ExceptT.run_bind]
  refine bind_congr fun x => ?_
  cases x <;> rfl

theorem run_ask_bind (q : Inquiry α) (g : α → Check γ) :
    (ask q >>= g).run = q >>= fun a => (g a).run := by
  rw [run_bind]
  rfl

/-! What a check does to what is known. -/

theorem keeps_bind (hc : c.run.Keeps) (hg : ∀ a, (g a).run.Keeps) : (c >>= g).run.Keeps := by
  rw [run_bind]
  refine hc.bind fun x => ?_
  cases x with
  | ok a => exact hg a
  | error r => exact Inquiry.keeps_pure _

theorem keeps_ask {q : Inquiry α} (h : q.Keeps) : (ask q).run.Keeps :=
  h.bind fun _ => Inquiry.keeps_pure _

theorem keeps_forM {l : List α} {g : α → Check Unit} (hg : ∀ x ∈ l, (g x).run.Keeps) :
    (l.forM g).run.Keeps := by
  induction l with
  | nil => exact Inquiry.keeps_pure _
  | cons x l ih =>
    rw [List.forall_mem_cons] at hg
    exact keeps_bind hg.1 fun _ => ih hg.2

/-- The check asks nothing new: names and answers stay as they are. -/
def Quiet (c : Check α) : Prop :=
  ∀ s, (c.run s).2.symbols = s.symbols ∧ (c.run s).2.memo = s.memo

theorem Quiet.keeps (hc : c.Quiet) : c.run.Keeps := by
  intro s
  obtain ⟨hsym, hmemo⟩ := hc s
  refine ⟨hsym ▸ SymbolTable.le_refl _, fun i scope x hx => ?_⟩
  rwa [Session.remembered?, hmemo]

theorem quiet_pure (a : α) : Quiet (pure a) := fun _ => ⟨rfl, rfl⟩

theorem quiet_reject (r : Rejection) : Quiet (reject r : Check α) := fun _ => ⟨rfl, rfl⟩

theorem quiet_demand (ok : Bool) (r : Rejection) : (demand ok r).Quiet := by
  cases ok
  · exact quiet_reject r
  · exact quiet_pure ()

theorem quiet_need (x : Option α) (r : Rejection) : (need x r).Quiet := by
  cases x with
  | none => exact quiet_reject r
  | some a => exact quiet_pure a

theorem quiet_write (level : Level) (origin : Origin) (m : String) :
    (ask (Inquiry.write level origin m)).Quiet := fun _ => ⟨rfl, rfl⟩

theorem quiet_polyText (p : Poly) : (ask (Inquiry.polyText p)).Quiet := fun _ => ⟨rfl, rfl⟩

theorem run_bind_of_ok {s : Session} (h : (c.run s).1 = .ok a) :
    (c >>= g).run s = (g a).run (c.run s).2 := by
  rw [run_bind]
  change (match (c.run s).1 with
    | .ok a => (g a).run
    | .error r => pure (.error r)) (c.run s).2 = _
  rw [h]

theorem run_bind_of_error {s : Session} (h : (c.run s).1 = .error r) :
    (c >>= g).run s = (.error r, (c.run s).2) := by
  rw [run_bind]
  change (match (c.run s).1 with
    | .ok a => (g a).run
    | .error r => pure (.error r)) (c.run s).2 = _
  rw [h]
  rfl

theorem Quiet.bind (hc : c.Quiet) (hg : ∀ a, (g a).Quiet) : (c >>= g).Quiet := by
  intro s
  obtain ⟨hsym, hmemo⟩ := hc s
  cases h : (c.run s).1 with
  | ok a =>
    obtain ⟨hsym', hmemo'⟩ := hg a (c.run s).2
    rw [run_bind_of_ok h]
    exact ⟨hsym'.trans hsym, hmemo'.trans hmemo⟩
  | error r =>
    rw [run_bind_of_error h]
    exact ⟨hsym, hmemo⟩

/-- The check asks nothing at all: it ends the same way in every session. -/
def Silent (c : Check α) : Prop := c.Quiet ∧ ∃ x, ∀ s, (c.run s).1 = x

theorem silent_pure (a : α) : Silent (pure a) := ⟨quiet_pure a, .ok a, fun _ => rfl⟩

theorem silent_reject (r : Rejection) : Silent (reject r : Check α) :=
  ⟨quiet_reject r, .error r, fun _ => rfl⟩

theorem silent_demand (ok : Bool) (r : Rejection) : (demand ok r).Silent := by
  cases ok
  · exact silent_reject r
  · exact silent_pure ()

theorem silent_need (x : Option α) (r : Rejection) : (need x r).Silent := by
  cases x with
  | none => exact silent_reject r
  | some a => exact silent_pure a

theorem Silent.bind (hc : c.Silent) (hg : ∀ a, (g a).Silent) : (c >>= g).Silent := by
  obtain ⟨hquiet, x, hx⟩ := hc
  refine ⟨hquiet.bind fun a => (hg a).1, ?_⟩
  cases x with
  | error r => exact ⟨.error r, fun s => by rw [run_bind_of_error (hx s)]⟩
  | ok a =>
    obtain ⟨-, y, hy⟩ := hg a
    exact ⟨y, fun s => by rw [run_bind_of_ok (hx s), hy]⟩

/-! Two checks side by side. -/

/-- Both pass with related results, or both fail for like reasons. -/
inductive Match (wording : Prop) (P : α → β → Prop) :
    Except Rejection α → Except Rejection β → Prop
  | ok {a : α} {b : β} : P a b → Match wording P (.ok a) (.ok b)
  | error {r r' : Rejection} : r.Alike wording r' → Match wording P (.error r) (.error r')

/-- The checks end alike in sessions that are in accord. -/
def Alongside (A : Accord) (wording : Prop) (P : α → β → Prop) (c : Check α) (c' : Check β) : Prop :=
  Inquiry.Alongside A (Match wording P) c.run c'.run

theorem alongside_pure (h : P a b) : Alongside A wording P (pure a) (pure b) :=
  Inquiry.alongside_pure (.ok h)

theorem alongside_reject (h : r.Alike wording r') :
    Alongside A wording P (reject r) (reject r') := fun _ _ hrel _ =>
  ⟨.error h, A.rel_of_eq hrel rfl rfl rfl rfl⟩

theorem Alongside.bind (hc : Alongside A wording P c c') (hkeep : ∀ a, (g a).run.Keeps)
    (hkeep' : ∀ b, (g' b).run.Keeps) (hg : ∀ a b, P a b → Alongside A wording Q (g a) (g' b)) :
    Alongside A wording Q (c >>= g) (c' >>= g') := by
  rw [Alongside, run_bind, run_bind]
  refine Inquiry.Alongside.bind hc (fun x => ?_) (fun x => ?_) fun x x' hx => ?_
  · cases x with
    | ok a => exact (hkeep a).grows
    | error r => exact Inquiry.grows_pure _
  · cases x with
    | ok b => exact (hkeep' b).grows
    | error r => exact Inquiry.grows_pure _
  · cases hx with
    | ok h => exact hg _ _ h
    | error h => exact Inquiry.alongside_pure (.error h)

theorem Alongside.bind_same {P : α → α → Prop} {Q : γ → γ → Prop} {c c' : Check α}
    (hc : Alongside A wording P c c') (hkeep : ∀ a, (g a).run.Keeps)
    (hg : ∀ a b, P a b → Alongside A wording Q (g a) (g b)) :
    Alongside A wording Q (c >>= g) (c' >>= g) :=
  hc.bind hkeep hkeep hg

theorem Alongside.bind₂ {ε : Type} {c₂ : Check β} {P : α → α → Prop} {P₂ : β → β → Prop}
    {Q : ε → ε → Prop} {c : Check α} {g : α → β → Check ε} (hc : Alongside A wording P c c)
    (hc₂ : Alongside A wording P₂ c₂ c₂) (hkeep₂ : c₂.run.Keeps)
    (hkeep : ∀ a b, (g a b).run.Keeps)
    (hg : ∀ a a' b b', P a a' → P₂ b b' → Alongside A wording Q (g a b) (g a' b')) :
    Alongside A wording Q (do g (← c) (← c₂)) (do g (← c) (← c₂)) :=
  hc.bind_same (fun a => keeps_bind hkeep₂ (hkeep a)) fun a a' ha =>
    hc₂.bind (hkeep a) (hkeep a') fun b b' hb => hg a a' b b' ha hb

theorem alongside_ask {q : Inquiry α} {q' : Inquiry β} (h : Inquiry.Alongside A P q q') :
    Alongside A wording P (ask q) (ask q') :=
  Inquiry.Alongside.bind h (fun _ => Inquiry.grows_pure _) (fun _ => Inquiry.grows_pure _)
    fun _ _ h => Inquiry.alongside_pure (.ok h)

/-! Steps that ask nothing new need no room. -/

theorem alongside_demand {ok ok' : Bool} (hok : ok = ok') (h : r.Alike wording r') :
    Alongside A wording (· = ·) (demand ok r) (demand ok' r') := by
  subst hok
  cases ok
  · exact alongside_reject h
  · exact alongside_pure rfl

theorem alongside_demand_bind {ok ok' : Bool} {g : Unit → Check γ} {g' : Unit → Check δ}
    (hok : ok = ok') (h : r.Alike wording r')
    (hg : ok = true → Alongside A wording Q (g ()) (g' ())) :
    Alongside A wording Q (demand ok r >>= g) (demand ok' r' >>= g') := by
  subst hok
  cases ok
  · exact alongside_reject h
  · exact hg rfl

theorem alongside_need_bind {x : Option α} {x' : Option β} (hx : Option.Rel P x x')
    (h : r.Alike wording r') (hg : ∀ a b, P a b → Alongside A wording Q (g a) (g' b)) :
    Alongside A wording Q (need x r >>= g) (need x' r' >>= g') := by
  cases hx with
  | none => exact alongside_reject h
  | some h => exact hg _ _ h

theorem alongside_text_bind {p p' : Poly} {g : String → Check γ} {g' : String → Check δ}
    (h : wording → ∀ s s', A.rel s s' → p.text s.symbols.name = p'.text s'.symbols.name)
    (hg : ∀ x y, (wording → x = y) → Alongside A wording Q (g x) (g' y)) :
    Alongside A wording Q (ask (Inquiry.polyText p) >>= g) (ask (Inquiry.polyText p') >>= g') := by
  rw [Alongside, run_ask_bind, run_ask_bind]
  exact fun s s' hrel hroom => hg _ _ (fun hw => h hw s s' hrel) s s' hrel hroom

theorem alongside_write (level : Level) (origin : Origin) (m m' : String) :
    Alongside A wording (· = ·) (ask (Inquiry.write level origin m))
      (ask (Inquiry.write level origin m')) :=
  fun _ _ hrel _ => ⟨.ok rfl, A.rel_of_eq hrel rfl rfl rfl rfl⟩

theorem alongside_write_bind {g : Unit → Check γ} {g' : Unit → Check δ}
    (hg : Alongside A wording Q (g ()) (g' ())) (level : Level) (origin : Origin) (m m' : String) :
    Alongside A wording Q (ask (Inquiry.write level origin m) >>= g)
      (ask (Inquiry.write level origin m') >>= g') := by
  rw [Alongside, run_ask_bind, run_ask_bind]
  exact Inquiry.alongside_write_bind hg _ _ _ _

theorem Silent.alongside_bind {g' : α → Check δ} (hc : c.Silent)
    (hg : ∀ a, Alongside A wording Q (g a) (g' a)) :
    Alongside A wording Q (c >>= g) (c >>= g') := by
  obtain ⟨hquiet, x, hx⟩ := hc
  intro s s' hrel hroom
  have hrel' := A.rel_of_eq hrel (hquiet s).1 (hquiet s).2 (hquiet s').1 (hquiet s').2
  cases x with
  | ok a =>
    rw [run_bind_of_ok (hx s), run_bind_of_ok (hx s')] at hroom ⊢
    exact hg a _ _ hrel' hroom
  | error r =>
    rw [run_bind_of_error (hx s), run_bind_of_error (hx s')]
    exact ⟨.error (.refl r), hrel'⟩

theorem alongside_forM {l : List α} {g : α → Check Unit} (hkeep : ∀ x ∈ l, (g x).run.Keeps)
    (hg : ∀ x ∈ l, Alongside A wording (· = ·) (g x) (g x)) :
    Alongside A wording (· = ·) (l.forM g) (l.forM g) := by
  induction l with
  | nil => exact alongside_pure rfl
  | cons x l ih =>
    rw [List.forall_mem_cons] at hkeep hg
    exact hg.1.bind_same (fun _ => keeps_forM hkeep.2) fun _ _ _ => ih hkeep.2 hg.2

end Check

end LoopFusion
