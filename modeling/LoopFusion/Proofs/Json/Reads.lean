import LoopFusion.Proofs.Json.Tokens

/-!
How a document can be spelled, rule by rule: for each kind of document, which characters are read
as it. Blanks may stand behind an opening bracket, behind a comma or colon and before a closing
bracket. A value takes two steps of fuel for each of its characters at most.
-/

namespace LoopFusion.Json

/-- Nothing but blanks. -/
def Blank (cs : List Char) : Prop := ∀ c ∈ cs, isBlank c

/-- The characters are read as the document, and what follows them is left. -/
def Reads (cs : List Char) (j : Json) : Prop :=
  ∀ fuel rest, 2 * cs.length ≤ fuel → EndsNumber rest → value fuel (cs ++ rest) = some (j, rest)

/-- The characters, a closing bracket at their end, are read as elements. -/
def ReadsElements (cs : List Char) (js : List Json) : Prop :=
  ∀ fuel rest, 2 * cs.length ≤ fuel → elements fuel (cs ++ rest) = some (js, rest)

/-- The characters, a closing brace at their end, are read as members. -/
def ReadsMembers (cs : List Char) (ms : List (String × Json)) : Prop :=
  ∀ fuel rest, 2 * cs.length ≤ fuel →
    members fuel (cs ++ rest) = some (ms.map fun m => (some m.1, m.2), rest)

attribute [local simp] value elements members

variable {cs ds v w rest : List Char} {fuel : Nat} {c : Char} {j : Json} {js : List Json}
  {ms : List (String × Json)}

/-! ### Blanks -/

theorem eq_of_isBlank (h : isBlank c) : c = ' ' ∨ c = '\n' ∨ c = '\t' ∨ c = '\r' := by
  simpa [isBlank, or_assoc] using h

theorem skipBlanks_append (hw : Blank w) (hc : isBlank c = false) :
    skipBlanks (w ++ c :: cs) = c :: cs := by
  rw [skipBlanks, List.dropWhile_append_of_pos hw, List.dropWhile_cons_of_neg (by simp [hc])]

theorem skipBlanks_cons (hc : isBlank c = false) : skipBlanks (c :: cs) = c :: cs :=
  skipBlanks_append (w := []) (fun _ hd => nomatch hd) hc

theorem skipBlanks_of_blank (hw : Blank w) : skipBlanks w = [] :=
  (congrArg _ (List.append_nil w)).symm.trans (List.dropWhile_append_of_pos hw)

theorem endsNumber_cons (hc : isDigit c = false ∧ c ≠ '.' ∧ c ≠ 'e' ∧ c ≠ 'E') :
    EndsNumber (c :: cs) := by
  intro d hd
  rwa [← Option.some.inj hd]

theorem endsNumber_nil : EndsNumber [] := fun _ hd => nomatch hd

theorem endsNumber_append (hw : Blank w) (hrest : EndsNumber rest) : EndsNumber (w ++ rest) := by
  cases w with
  | nil => exact hrest
  | cons c w =>
    obtain rfl | rfl | rfl | rfl := eq_of_isBlank (hw c List.mem_cons_self) <;>
      exact endsNumber_cons (by decide)

/-! ### How what is read begins -/

/-- Something stands in front that is no blank and no closing bracket. -/
def Starts (cs : List Char) : Prop :=
  ∃ c ds, cs = c :: ds ∧ isBlank c = false ∧ c ≠ ']' ∧ c ≠ '\x7d'

theorem Starts.skipBlanks_append (h : Starts cs) (hw : Blank w) :
    skipBlanks (w ++ (cs ++ rest)) = cs ++ rest := by
  obtain ⟨c, ds, rfl, hblank, -, -⟩ := h
  exact Json.skipBlanks_append hw hblank

theorem starts_of_value {r : Json × List Char} (h : value fuel cs = some r) : Starts cs := by
  cases fuel with
  | zero => simp at h
  | succ fuel =>
    cases cs with
    | nil => simp [number, unsigned, wholePart, digits] at h
    | cons c ds =>
      refine ⟨c, ds, rfl, Bool.eq_false_iff.2 fun hblank => ?_, ?_, ?_⟩
      · obtain rfl | rfl | rfl | rfl := eq_of_isBlank hblank <;>
          simp [number, unsigned, wholePart, digits, isDigit] at h
      all_goals
        rintro rfl
        simp [number, unsigned, wholePart, digits, isDigit] at h

theorem Reads.starts (h : Reads cs j) : Starts cs := by
  have hread := h _ [] (Nat.le_refl _) endsNumber_nil
  rw [List.append_nil] at hread
  exact starts_of_value hread

theorem ReadsElements.starts (h : ReadsElements cs js) : Starts cs := by
  have hread := h _ [] (Nat.le_refl _)
  rw [List.append_nil] at hread
  cases hfuel : 2 * cs.length with
  | zero => simp [hfuel] at hread
  | succ fuel =>
    rw [hfuel, elements] at hread
    obtain ⟨r, hvalue, -⟩ := Option.bind_eq_some_iff.1 hread
    exact starts_of_value hvalue

theorem ReadsMembers.starts (h : ReadsMembers cs ms) : Starts cs := by
  have hread := h _ [] (Nat.le_refl _)
  rw [List.append_nil] at hread
  cases hfuel : 2 * cs.length with
  | zero => simp [hfuel] at hread
  | succ fuel =>
    rw [hfuel, members] at hread
    obtain ⟨ds, hquote, -⟩ := Option.bind_eq_some_iff.1 hread
    cases cs with
    | nil => simp [expect?] at hquote
    | cons c cs =>
      have hc : '"' = c := Decidable.byContradiction fun hne => by simp [expect?, hne] at hquote
      exact ⟨c, cs, rfl, by rw [← hc]; decide⟩

/-- Where there is something to read, there is fuel for two steps. -/
theorem exists_steps (hne : cs ≠ []) (hfuel : 2 * cs.length ≤ fuel) :
    ∃ steps, fuel = steps + 2 := by
  have hlength := List.length_pos_iff.2 hne
  exact ⟨fuel - 2, by omega⟩

/-! ### Plain values -/

theorem reads_null : Reads "null".toList null := by
  intro fuel rest hfuel _
  obtain ⟨fuel, rfl⟩ := exists_steps (by simp) hfuel
  simp [keyword, expect?]

theorem reads_bool (b : Bool) : Reads (if b then "true" else "false").toList (bool b) := by
  intro fuel rest hfuel _
  obtain ⟨fuel, rfl⟩ := exists_steps (by cases b <;> simp) hfuel
  cases b <;> simp [keyword, expect?]

theorem value_of_digit (hc : c = '-' ∨ isDigit c) :
    value (fuel + 1) (c :: cs) = number (c :: cs) := by
  rw [value]
  all_goals
    rintro ds hcs
    rw [(List.cons.inj hcs).1] at hc
    exact absurd hc (by decide)

theorem reads_int (n : Int) : Reads (toString n).toList (int n) := by
  intro fuel rest hfuel hrest
  obtain ⟨c, cs, hcs, hc⟩ := exists_head_of_int n
  obtain ⟨fuel, rfl⟩ := exists_steps (by rw [hcs]; simp) hfuel
  rw [hcs, List.cons_append, value_of_digit hc, ← List.cons_append, ← hcs, number_toString n hrest]

theorem toList_quote (s : String) :
    (quote s).toList = '"' :: (s.toList.flatMap escape ++ ['"']) := by
  simp [quote]

theorem text_quote (s : String) (rest : List Char) :
    ∃ cs, (quote s).toList ++ rest = '"' :: cs ∧ text cs = some (some s, rest) :=
  ⟨s.toList.flatMap escape ++ '"' :: rest, by simp [toList_quote], text_quoted s rest⟩

theorem reads_str (s : String) : Reads (quote s).toList (str s) := by
  intro fuel rest hfuel _
  obtain ⟨fuel, rfl⟩ := exists_steps (by simp [toList_quote]) hfuel
  obtain ⟨cs, hcs, htext⟩ := text_quote s rest
  rw [hcs, value, htext]
  rfl

/-! ### Arrays -/

theorem readsElements_last (h : Reads cs j) (hw : Blank w) :
    ReadsElements (cs ++ (w ++ [']'])) [j] := by
  intro fuel rest hfuel
  obtain ⟨fuel, rfl⟩ := exists_steps (by simp) hfuel
  have hvalue := h (fuel + 1) (w ++ ']' :: rest) (by simp at hfuel; omega)
    (endsNumber_append hw (endsNumber_cons (by decide)))
  simp only [List.append_assoc, List.singleton_append, elements, hvalue, Option.bind_eq_bind,
    Option.bind_some, skipBlanks_append hw (show isBlank ']' = false by decide), Option.pure_def]

theorem readsElements_cons (h : Reads cs j) (hw : Blank w) (hds : ReadsElements ds js) :
    ReadsElements (cs ++ ',' :: (w ++ ds)) (j :: js) := by
  intro fuel rest hfuel
  obtain ⟨fuel, rfl⟩ := exists_steps (by simp) hfuel
  simp only [List.length_append, List.length_cons] at hfuel
  have hvalue := h (fuel + 1) (',' :: (w ++ (ds ++ rest))) (by omega) (endsNumber_cons (by decide))
  have hfurther := hds (fuel + 1) rest (by omega)
  rw [List.append_assoc, List.cons_append, List.append_assoc, elements, hvalue]
  have hcomma : skipBlanks (',' :: (w ++ (ds ++ rest))) = ',' :: (w ++ (ds ++ rest)) :=
    skipBlanks_cons (by decide)
  simp only [Option.bind_eq_bind, Option.bind_some, hcomma, hds.starts.skipBlanks_append hw,
    hfurther, Option.pure_def]

theorem reads_arr_nil : Reads ['[', ']'] (arr []) := by
  intro fuel rest hfuel _
  obtain ⟨fuel, rfl⟩ := exists_steps (by simp) hfuel
  rfl

theorem Starts.array_eq (h : Starts cs) :
    array (fuel + 1) (cs ++ rest) = elements fuel (cs ++ rest) := by
  obtain ⟨c, ds, rfl, -, hclose, -⟩ := h
  rw [List.cons_append, array]
  rintro ds hcs
  exact hclose (List.cons.inj hcs).1

theorem reads_arr (hw : Blank w) (h : ReadsElements cs js) : Reads ('[' :: (w ++ cs)) (arr js) := by
  intro fuel rest hfuel _
  obtain ⟨fuel, rfl⟩ := exists_steps (by simp) hfuel
  simp only [List.length_append, List.length_cons] at hfuel
  have helements := h fuel rest (by omega)
  simp only [List.cons_append, List.append_assoc, value, h.starts.skipBlanks_append hw,
    h.starts.array_eq, helements, Option.map_some]

/-! ### Objects -/

/-- A name with its value is the last member before a closing brace, and one of several before a
comma. -/
theorem members_step (k : String) (hv : Blank v) (h : Reads cs j) (hfuel : 2 * cs.length ≤ fuel)
    (hrest : EndsNumber rest) :
    (∀ ds, skipBlanks rest = '\x7d' :: ds →
      members (fuel + 1) ((quote k).toList ++ ':' :: (v ++ (cs ++ rest))) =
        some ([(some k, j)], ds)) ∧
    ∀ ds r, skipBlanks rest = ',' :: ds → members fuel (skipBlanks ds) = some r →
      members (fuel + 1) ((quote k).toList ++ ':' :: (v ++ (cs ++ rest))) =
        some ((some k, j) :: r.1, r.2) := by
  obtain ⟨ts, hts, htext⟩ := text_quote k (':' :: (v ++ (cs ++ rest)))
  have hcolon : skipBlanks (':' :: (v ++ (cs ++ rest))) = ':' :: (v ++ (cs ++ rest)) :=
    skipBlanks_cons (by decide)
  have hvalue := h fuel rest hfuel hrest
  rw [hts]
  constructor
  · intro ds hclose
    simp only [members, expect?, htext, hcolon, h.starts.skipBlanks_append hv, hvalue, hclose,
      Option.bind_eq_bind, Option.bind_some, Option.pure_def, if_true]
  · intro ds r hcomma hfurther
    simp only [members, expect?, htext, hcolon, h.starts.skipBlanks_append hv, hvalue, hcomma,
      hfurther, Option.bind_eq_bind, Option.bind_some, Option.pure_def, if_true]

theorem readsMembers_last (k : String) (hv : Blank v) (h : Reads cs j) (hw : Blank w) :
    ReadsMembers ((quote k).toList ++ ':' :: (v ++ (cs ++ (w ++ ['\x7d'])))) [(k, j)] := by
  intro fuel rest hfuel
  obtain ⟨fuel, rfl⟩ := exists_steps (by simp) hfuel
  simp only [List.length_append, List.length_cons] at hfuel
  have hends : EndsNumber (w ++ '\x7d' :: rest) :=
    endsNumber_append hw (endsNumber_cons (by decide))
  have hread := (members_step k hv h (show 2 * cs.length ≤ fuel + 1 by omega) hends).1 rest
    (skipBlanks_append hw (by decide))
  simpa using hread

theorem readsMembers_cons (k : String) (hv : Blank v) (h : Reads cs j) (hw : Blank w)
    (hds : ReadsMembers ds ms) :
    ReadsMembers ((quote k).toList ++ ':' :: (v ++ (cs ++ ',' :: (w ++ ds)))) ((k, j) :: ms) := by
  intro fuel rest hfuel
  obtain ⟨fuel, rfl⟩ := exists_steps (by simp) hfuel
  simp only [List.length_append, List.length_cons] at hfuel
  have hends : EndsNumber (',' :: (w ++ (ds ++ rest))) := endsNumber_cons (by decide)
  have hfurther : members (fuel + 1) (skipBlanks (w ++ (ds ++ rest))) =
      some (ms.map fun m => (some m.1, m.2), rest) := by
    rw [hds.starts.skipBlanks_append hw, hds (fuel + 1) rest (by omega)]
  have hread := (members_step k hv h (show 2 * cs.length ≤ fuel + 1 by omega) hends).2 _ _
    (skipBlanks_cons (by decide)) hfurther
  simpa using hread

theorem reads_obj_nil : Reads ['\x7b', '\x7d'] (obj []) := by
  intro fuel rest hfuel _
  obtain ⟨fuel, rfl⟩ := exists_steps (by simp) hfuel
  rfl

theorem Starts.object_eq (h : Starts cs) :
    object (fuel + 1) (cs ++ rest) = members fuel (cs ++ rest) := by
  obtain ⟨c, ds, rfl, -, -, hclose⟩ := h
  rw [List.cons_append, object]
  rintro ds hcs
  exact hclose (List.cons.inj hcs).1

theorem mapM_map_eq_some {α β γ : Type} {f : α → β} {g : β → Option γ} {h : α → γ} {xs : List α}
    (hg : ∀ x ∈ xs, g (f x) = some (h x)) : (xs.map f).mapM g = some (xs.map h) := by
  induction xs with
  | nil => rfl
  | cons x xs ih =>
    rw [List.forall_mem_cons] at hg
    rw [List.map_cons, List.mapM_cons, hg.1, ih hg.2]
    rfl

theorem ofMembers_eq (ms : List (String × Json)) :
    ofMembers (ms.map fun m => (some m.1, m.2)) = obj ms := by
  rw [ofMembers, mapM_map_eq_some (h := id), List.map_id]
  exact fun _ _ => rfl

theorem reads_obj (hw : Blank w) (h : ReadsMembers cs ms) :
    Reads ('\x7b' :: (w ++ cs)) (obj ms) := by
  intro fuel rest hfuel _
  obtain ⟨fuel, rfl⟩ := exists_steps (by simp) hfuel
  simp only [List.length_append, List.length_cons] at hfuel
  have hmembers := h fuel rest (by omega)
  simp only [List.cons_append, List.append_assoc, value, h.starts.skipBlanks_append hw,
    h.starts.object_eq, hmembers, Option.map_some, ofMembers_eq]

end LoopFusion.Json
