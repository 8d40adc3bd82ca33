import LoopFusion.Proofs.Json.Reads

/-!
Both layouts of a document, on one line and over several, are read back as the document. Numbers
that are no integers and texts that are not made of characters are no part of this: both are
written as null.
-/

namespace LoopFusion.Json

/-- Made of what can be written: integers, texts, truth values and null. -/
inductive Plain : Json → Prop
  | null : Plain null
  | bool (b : Bool) : Plain (bool b)
  | int (n : Int) : Plain (int n)
  | str (s : String) : Plain (str s)
  | arr {js : List Json} (h : ∀ j ∈ js, Plain j) : Plain (arr js)
  | obj {ms : List (String × Json)} (h : ∀ m ∈ ms, Plain m.2) : Plain (obj ms)

variable {cs w : List Char} {j : Json} {js : List Json} {ms : List (String × Json)} {level : Nat}

theorem blank_nil : Blank [] := fun _ hc => nomatch hc

theorem blank_space : Blank [' '] := by simp [Blank, isBlank]

theorem blank_newline (level : Nat) : Blank (newline level).toList := by
  intro c hc
  have hchar : c = '\n' ∨ c = ' ' := by
    simp only [newline, String.toList_append, String.toList_ofList, List.mem_append] at hc
    obtain hc | hc := hc
    · exact .inl (by simpa using hc)
    · exact .inr (List.eq_of_mem_replicate hc)
  obtain rfl | rfl := hchar <;> rfl

/-! ### On one line -/

theorem readsElements_compact (hne : js ≠ []) (h : ∀ j ∈ js, Reads j.compact.toList j) :
    ReadsElements ((compactElements js).toList ++ [']']) js := by
  induction js with
  | nil => exact absurd rfl hne
  | cons j js ih =>
    rw [List.forall_mem_cons] at h
    cases js with
    | nil => exact readsElements_last h.1 blank_nil
    | cons i js =>
      have hfurther := readsElements_cons h.1 blank_nil (ih (List.cons_ne_nil i js) h.2)
      simpa [compactElements] using hfurther

theorem readsMembers_compact (hne : ms ≠ []) (h : ∀ m ∈ ms, Reads m.2.compact.toList m.2) :
    ReadsMembers ((compactMembers ms).toList ++ ['\x7d']) ms := by
  induction ms with
  | nil => exact absurd rfl hne
  | cons m ms ih =>
    rw [List.forall_mem_cons] at h
    cases ms with
    | nil =>
      have hlast := readsMembers_last m.1 blank_nil h.1 blank_nil
      simpa [compactMembers] using hlast
    | cons i ms =>
      have hfurther := readsMembers_cons m.1 blank_nil h.1 blank_nil
        (ih (List.cons_ne_nil i ms) h.2)
      simpa [compactMembers] using hfurther

theorem Plain.reads_compact (h : Plain j) : Reads j.compact.toList j := by
  induction h with
  | null => exact reads_null
  | bool b => exact reads_bool b
  | int n => exact reads_int n
  | str s => exact reads_str s
  | @arr js _ ih =>
    cases js with
    | nil => exact reads_arr_nil
    | cons j js =>
      have harr := reads_arr blank_nil (readsElements_compact (List.cons_ne_nil j js) ih)
      simpa [compact] using harr
  | @obj ms _ ih =>
    cases ms with
    | nil => exact reads_obj_nil
    | cons m ms =>
      have hobj := reads_obj blank_nil (readsMembers_compact (List.cons_ne_nil m ms) ih)
      simpa [compact] using hobj

/-! ### Over several lines -/

theorem readsElements_spread (hj : Reads cs j) (hw : Blank w)
    (h : ∀ j ∈ js, Reads (j.spread level).toList j) :
    ReadsElements (cs ++ ((spreadElements level js).toList ++ (w ++ [']']))) (j :: js) := by
  induction js generalizing cs j with
  | nil => simpa [spreadElements] using readsElements_last hj hw
  | cons i js ih =>
    rw [List.forall_mem_cons] at h
    have hfurther := readsElements_cons hj (blank_newline level) (ih h.1 h.2)
    simpa [spreadElements] using hfurther

theorem readsMembers_spread (k : String) (hj : Reads cs j) (hw : Blank w)
    (h : ∀ m ∈ ms, Reads (m.2.spread level).toList m.2) :
    ReadsMembers ((quote k).toList ++ ':' :: ' ' :: (cs ++ ((spreadMembers level ms).toList ++
      (w ++ ['\x7d'])))) ((k, j) :: ms) := by
  induction ms generalizing cs j k with
  | nil => simpa [spreadMembers] using readsMembers_last k blank_space hj hw
  | cons m ms ih =>
    rw [List.forall_mem_cons] at h
    have hfurther := readsMembers_cons k blank_space hj (blank_newline level) (ih m.1 h.1 h.2)
    simpa [spreadMembers] using hfurther

theorem Plain.reads_spread (h : Plain j) (level : Nat) : Reads (j.spread level).toList j := by
  induction h generalizing level with
  | null => simpa [spread] using reads_null
  | bool b => simpa [spread] using reads_bool b
  | int n => simpa [spread] using reads_int n
  | str s => simpa [spread] using reads_str s
  | @arr js _ ih =>
    cases js with
    | nil => simpa [spread] using reads_arr_nil
    | cons j js =>
      rw [List.forall_mem_cons] at ih
      have harr := reads_arr (blank_newline (level + 1))
        (readsElements_spread (ih.1 (level + 1)) (blank_newline level) fun j hj =>
          ih.2 j hj (level + 1))
      simpa [spread] using harr
  | @obj ms _ ih =>
    cases ms with
    | nil => simpa [spread] using reads_obj_nil
    | cons m ms =>
      rw [List.forall_mem_cons] at ih
      have hobj := reads_obj (blank_newline (level + 1))
        (readsMembers_spread m.1 (ih.1 (level + 1)) (blank_newline level) fun m hm =>
          ih.2 m hm (level + 1))
      simpa [spread] using hobj

/-! ### Whole texts -/

/-- A text is parsed once its characters can be read; blanks may follow. -/
theorem parse_append {s t : String} (h : Reads s.toList j) (ht : Blank t.toList) :
    parse (s ++ t) = some j := by
  have hskip : skipBlanks (s.toList ++ t.toList) = s.toList ++ t.toList :=
    h.starts.skipBlanks_append blank_nil
  have hends : EndsNumber t.toList := by
    have hnil := endsNumber_append ht endsNumber_nil
    rwa [List.append_nil] at hnil
  have hvalue := h (3 * (s.toList ++ t.toList).length + 3) t.toList
    (by rw [List.length_append]; omega) hends
  have hend : (guard (skipBlanks t.toList).isEmpty : Option Unit) = some () :=
    if_pos (by rw [skipBlanks_of_blank ht]; rfl)
  rw [parse, String.toList_append, hskip, hvalue]
  exact congrArg (Option.bind · fun _ => some j) hend

theorem Plain.parse_pretty (h : Plain j) {t : String} (ht : Blank t.toList) :
    parse (j.pretty ++ t) = some j :=
  parse_append (h.reads_spread 0) ht

theorem Plain.parse_compact (h : Plain j) {t : String} (ht : Blank t.toList) :
    parse (j.compact ++ t) = some j :=
  parse_append h.reads_compact ht

end LoopFusion.Json
