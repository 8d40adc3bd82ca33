import Mathlib.Data.Option.Basic
import LoopFusion.Json.Reader

/-!
Numbers and texts, read back from how they are written. What follows a number must not go on with
it; a text ends itself.
-/

namespace LoopFusion.Json

/-- Nothing that could belong to a number follows. -/
def EndsNumber (cs : List Char) : Prop :=
  ∀ c ∈ cs.head?, isDigit c = false ∧ c ≠ '.' ∧ c ≠ 'e' ∧ c ≠ 'E'

variable {cs rest : List Char} {n : Nat} {c : Char}

theorem isDigit_of_mem_toDigits (h : c ∈ Nat.toDigits 10 n) : isDigit c := by
  have hdigit := Char.isDigit_iff_toNat.1 (Nat.isDigit_of_mem_toDigits (by decide) (by decide) h)
  simpa [isDigit] using hdigit

theorem digits_append (hne : cs ≠ []) (hds : ∀ c ∈ cs, isDigit c) (hrest : EndsNumber rest) :
    digits (cs ++ rest) = some (cs, rest) := by
  have hstop : rest.takeWhile isDigit = [] ∧ rest.dropWhile isDigit = rest := by
    cases rest with
    | nil => exact ⟨rfl, rfl⟩
    | cons c rest =>
      have hc := (hrest c rfl).1
      simp [hc]
  have hnotEmpty : cs.isEmpty = false := by simpa using hne
  rw [digits, List.takeWhile_append_of_pos hds, List.dropWhile_append_of_pos hds, hstop.1, hstop.2,
    List.append_nil, hnotEmpty]
  rfl

theorem digitsValue_toDigits (n : Nat) : digitsValue (Nat.toDigits 10 n) = n :=
  (Nat.ofDigitChars_eq_foldl (b := 10)).symm.trans Nat.ofDigitChars_ten_toDigits

theorem eq_zero_of_head (h : (Nat.toDigits 10 n).head? = some '0') : n = 0 := by
  induction n using Nat.strongRecOn with
  | ind n ih =>
    by_cases hn : n < 10
    · have hsmall : ∀ k < 10, k.digitChar = '0' → k = 0 := by decide
      rw [Nat.toDigits_of_lt_base hn] at h
      exact hsmall n hn (by simpa using h)
    · obtain ⟨d, ds, hds⟩ := List.exists_cons_of_ne_nil
        (Nat.toDigits_ne_nil (b := 10) (n := n / 10))
      rw [Nat.toDigits_of_base_le (by decide) (by omega), hds] at h
      have hquot := ih (n / 10) (by omega) (by rw [hds]; exact h)
      omega

theorem wholePart_toDigits (n : Nat) (hrest : EndsNumber rest) :
    wholePart (Nat.toDigits 10 n ++ rest) = some (n, rest) := by
  have hds := digits_append Nat.toDigits_ne_nil (fun c => isDigit_of_mem_toDigits (n := n)) hrest
  have hfront : (decide ((Nat.toDigits 10 n).head? = some '0') &&
      decide (Nat.toDigits 10 n ≠ ['0'])) = false := by
    by_cases hhead : (Nat.toDigits 10 n).head? = some '0'
    · rw [eq_zero_of_head hhead]
      rfl
    · simp [hhead]
  simp only [wholePart, hds, Option.bind_eq_bind, Option.bind_some, hfront, Bool.false_eq_true,
    if_false, digitsValue_toDigits]

theorem fraction_of_endsNumber (hrest : EndsNumber rest) : fraction rest = some (false, rest) := by
  unfold fraction
  split
  · exact absurd rfl (hrest _ rfl).2.1
  · rfl

theorem exponent_of_endsNumber (hrest : EndsNumber rest) : exponent rest = some (false, rest) := by
  unfold exponent
  split
  · exact absurd rfl (hrest _ rfl).2.2.1
  · exact absurd rfl (hrest _ rfl).2.2.2
  · rfl

theorem unsigned_toDigits (negative : Bool) (n : Nat) (hn : negative → n ≠ 0)
    (hrest : EndsNumber rest) :
    unsigned negative (Nat.toDigits 10 n ++ rest) =
      some (int (if negative then -n else n), rest) := by
  have hzero : (negative && decide (n = 0)) = false := by
    cases negative with
    | false => rfl
    | true => simpa using hn rfl
  simp only [unsigned, wholePart_toDigits n hrest, fraction_of_endsNumber hrest,
    exponent_of_endsNumber hrest, Option.bind_eq_bind, Option.bind_some, Option.pure_def, hzero,
    Bool.or_false, Bool.false_eq_true, if_false]

theorem number_of_digit (hc : isDigit c) : number (c :: cs) = unsigned false (c :: cs) := by
  rw [number]
  intro ds hsign
  rw [(List.cons.inj hsign).1] at hc
  exact absurd hc (by decide)

theorem exists_digit (n : Nat) : ∃ c cs, Nat.toDigits 10 n = c :: cs ∧ isDigit c := by
  obtain ⟨c, cs, hds⟩ := List.exists_cons_of_ne_nil (Nat.toDigits_ne_nil (b := 10) (n := n))
  exact ⟨c, cs, hds, isDigit_of_mem_toDigits (n := n) (hds ▸ List.mem_cons_self)⟩

theorem toList_ofNat (n : Nat) : (toString (Int.ofNat n)).toList = Nat.toDigits 10 n :=
  Nat.toList_repr

theorem toList_negSucc (n : Nat) :
    (toString (Int.negSucc n)).toList = '-' :: Nat.toDigits 10 (n + 1) := by
  change ("-" ++ Nat.repr (n + 1)).toList = _
  rw [String.toList_append, Nat.toList_repr]
  rfl

theorem exists_head_of_int (n : Int) :
    ∃ c cs, (toString n).toList = c :: cs ∧ (c = '-' ∨ isDigit c) := by
  cases n with
  | ofNat n =>
    obtain ⟨c, cs, hds, hc⟩ := exists_digit n
    exact ⟨c, cs, (toList_ofNat n).trans hds, .inr hc⟩
  | negSucc n => exact ⟨'-', _, toList_negSucc n, .inl rfl⟩

theorem number_toString (n : Int) (hrest : EndsNumber rest) :
    number ((toString n).toList ++ rest) = some (int n, rest) := by
  cases n with
  | ofNat n =>
    obtain ⟨c, cs, hds, hc⟩ := exists_digit n
    have hread := unsigned_toDigits false n (by simp) hrest
    rw [hds] at hread
    rw [toList_ofNat, hds, List.cons_append, number_of_digit hc]
    exact hread
  | negSucc n =>
    rw [toList_negSucc]
    exact unsigned_toDigits true (n + 1) (by simp) hrest

/-! ### Texts -/

theorem hexValue?_hexDigit : ∀ n < 16, hexValue? (hexDigit n) = some n := by decide

theorem hexValue4?_hexDigit {n : Nat} (hn : n < 32) :
    hexValue4? '0' '0' (hexDigit (n / 16)) (hexDigit (n % 16)) = some n := by
  have hzero : hexValue? '0' = some 0 := by decide
  simp only [hexValue4?, hzero, hexValue?_hexDigit (n / 16) (by omega),
    hexValue?_hexDigit (n % 16) (by omega), Option.bind_eq_bind, Option.bind_some, Option.pure_def,
    Option.some.injEq]
  omega

/-- One character, escaped or not, is one code point. -/
theorem codePoints_escape (c : Char) (cs : List Char) :
    codePoints (escape c ++ cs) = (codePoints cs).map fun (ns, rest) => (c.toNat :: ns, rest) := by
  unfold escape
  split
  case h_8 hquote hslash _ _ _ _ _ =>
    split
    case isTrue hcontrol =>
      cases hcs : codePoints cs <;> simp [codePoints, hexValue4?_hexDigit hcontrol, hcs]
    case isFalse hcontrol =>
      have hshown : (guard (32 ≤ c.toNat) : Option Unit) = some () := if_pos (by omega)
      rw [List.singleton_append, codePoints]
      · rw [hshown]
        cases hcs : codePoints cs <;> rfl
      · exact hquote
      · exact fun _ _ _ _ _ hc _ => hslash hc
      · exact fun _ _ hc _ => hslash hc
  all_goals cases hcs : codePoints cs <;> simp [codePoints, letterEscape?, hcs]

theorem codePoints_flatMap_escape (cs rest : List Char) :
    codePoints (cs.flatMap escape ++ '"' :: rest) = some (cs.map Char.toNat, rest) := by
  induction cs with
  | nil => simp [codePoints]
  | cons c cs ih =>
    rw [List.flatMap_cons, List.append_assoc, codePoints_escape, ih]
    rfl

theorem not_surrogate (c : Char) : (isHighSurrogate c.toNat || isLowSurrogate c.toNat) = false := by
  have hvalid : c.toNat < 0xD800 ∨ 0xDFFF < c.toNat ∧ c.toNat < 0x110000 := c.valid
  simp only [isHighSurrogate, isLowSurrogate, Bool.or_eq_false_iff, Bool.and_eq_false_iff,
    decide_eq_false_iff_not]
  omega

theorem characters?_toNat (cs : List Char) : characters? (cs.map Char.toNat) = some cs := by
  induction cs with
  | nil => rfl
  | cons c cs ih =>
    have hc := not_surrogate c
    cases cs with
    | nil =>
      simp only [List.map_cons, List.map_nil, characters?, hc, Bool.false_eq_true, if_false,
        Char.ofNat_toNat]
    | cons d ds =>
      have hhalves := Bool.or_eq_false_iff.1 hc
      rw [List.map_cons] at ih
      simp only [List.map_cons, characters?, hhalves, Bool.false_eq_true, if_false, ih,
        Char.ofNat_toNat, Option.map_some]

theorem text_quoted (s : String) (rest : List Char) :
    text (s.toList.flatMap escape ++ '"' :: rest) = some (some s, rest) := by
  simp only [text, codePoints_flatMap_escape, characters?_toNat, Option.bind_eq_bind,
    Option.bind_some, Option.pure_def, Option.map_some, String.ofList_toList]

end LoopFusion.Json
