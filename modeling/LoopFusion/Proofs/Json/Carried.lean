import LoopFusion.Json.Fields
import LoopFusion.Proofs.Json.Written

/-!
Values that survive the way through a document: what is written for them can be written in full, and
decodes to them again. Records are written as objects with all their fields.
-/

namespace LoopFusion.Json

/-- The document holds nothing but plain parts and decodes to the value. -/
structure Carries {α : Type} (decode : Json → Option α) (j : Json) (a : α) : Prop where
  plain : j.Plain
  decodes : decode j = some a

variable {α : Type} {decode : Json → Option α} {encode : α → Json} {j : Json} {a : α}

theorem Carries.map {β : Type} (h : Carries decode j a) (f : α → β) :
    Carries (fun j => (decode j).map f) j (f a) :=
  ⟨h.plain, congrArg (Option.map f) h.decodes⟩

theorem carries_str (s : String) : Carries str? (str s) s :=
  ⟨.str s, rfl⟩

theorem carries_bool (b : Bool) : Carries bool? (bool b) b :=
  ⟨.bool b, rfl⟩

theorem natBelow?_nat {bound n : Nat} (h : n < bound) : natBelow? bound (nat n) = some n := by
  simp [natBelow?, nat, int?, h]

theorem carries_handle {n : Nat} (h : n < UInt32.size) : Carries handle? (nat n) n :=
  ⟨.int n, natBelow?_nat h⟩

theorem carries_int64 (c : Int64) : Carries int64? (int c.toInt) c where
  plain := .int c.toInt
  decodes := by
    have hfits : Fits c.toInt := ⟨c.le_toInt, c.toInt_lt⟩
    simp [int64?, int?, word?, hfits]

theorem carries_list {xs : List α} (h : ∀ x ∈ xs, Carries decode (encode x) x) :
    Carries (list? decode) (ofList encode xs) xs where
  plain := .arr fun j hj => by
    obtain ⟨x, hx, rfl⟩ := List.mem_map.1 hj
    exact (h x hx).plain
  decodes := by
    have hdecodes := mapM_map_eq_some (h := id) fun x hx => (h x hx).decodes
    rwa [List.map_id] at hdecodes

/-- Null stands for a missing value, so no value may be written as null. -/
theorem carries_nullable {o : Option α} (h : ∀ x ∈ o, Carries decode (encode x) x)
    (hnull : ∀ x, encode x ≠ null) : Carries (nullable? decode) (ofOption encode o) o := by
  cases o with
  | none => exact ⟨.null, rfl⟩
  | some x =>
    refine ⟨(h x rfl).plain, ?_⟩
    have hdecodes := (h x rfl).decodes
    rw [ofOption, nullable?, hdecodes]
    · rfl
    · exact hnull x

theorem Carries.required (h : Carries decode j a) : (Slot.given j).required decode = some a :=
  h.decodes

theorem Carries.withDefault (h : Carries decode j a) (b : α) :
    (Slot.given j).withDefault b decode = some a :=
  h.decodes

theorem Carries.optional {o : Option α} {decode : Json → Option (Option α)}
    (h : Carries decode j o) : (Slot.given j).optional decode = some o :=
  h.decodes

theorem Carries.variant {β : Type} {outer : Json → Option β} {f : α → β} {name : String}
    (h : Carries decode j a) (houter : ∀ i, outer (obj [(name, i)]) = (decode i).map f) :
    Carries outer (obj [(name, j)]) (f a) where
  plain := .obj (List.forall_mem_singleton.2 h.plain)
  decodes := by rw [houter, h.decodes, Option.map_some]

/-! ### Records -/

theorem filter_name {ms : List (String × Json)} {m : String × Json}
    (hnames : (ms.map (·.1)).Nodup) (hm : m ∈ ms) : (ms.filter fun i => i.1 == m.1) = [m] := by
  induction ms with
  | nil => exact nomatch hm
  | cons i ms ih =>
    obtain ⟨hi, hms⟩ := List.nodup_cons.1 hnames
    obtain rfl | hm := List.mem_cons.1 hm
    · have hothers : (ms.filter fun i => i.1 == m.1) = [] := by
        rw [List.filter_eq_nil_iff]
        exact fun i hmem hname => hi (List.mem_map.2 ⟨i, hmem, beq_iff_eq.1 hname⟩)
      simp [hothers]
    · have hne : (i.1 == m.1) = false :=
        beq_eq_false_iff_ne.2 fun hname => hi (List.mem_map.2 ⟨m, hm, hname.symm⟩)
      simp [hne, ih hms hm]

theorem fields?_obj {names : List String} {ms : List (String × Json)}
    (hnames : ms.map (·.1) = names) (hdistinct : names.Nodup) :
    fields? names (obj ms) = some (ms.map fun m => .given m.2) := by
  subst hnames
  exact mapM_map_eq_some fun m hm => by simp only [slotOf?, filter_name hdistinct hm]

end LoopFusion.Json
