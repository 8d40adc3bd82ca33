import LoopFusion.Proofs.Symbolic.Outside
import LoopFusion.Proofs.Symbolic.Sound

/-!
Which values share a symbol. A symbol stands for a name, and the name of an instruction ends with
its number. Parameters carry no number, so two of them, or one of them and an instruction, may go by
one name; two instructions never do.
-/

namespace LoopFusion

/-- A number after a mark that no digit is can be read back. -/
theorem eq_of_marked {m n : String} {i j : Nat}
    (h : m ++ "#" ++ toString i = n ++ "#" ++ toString j) : i = j := by
  have hread : ∀ (m : String) (i : Nat),
      (m ++ "#" ++ toString i).toList.reverse.takeWhile (· ≠ '#') =
        (toString i).toList.reverse := by
    intro m i
    have hdigits : ∀ c ∈ (toString i).toList.reverse, decide (c ≠ '#') = true := by
      intro c hc
      rw [List.mem_reverse, Nat.toString_eq_repr, Nat.toList_repr] at hc
      have hdigit := Nat.isDigit_of_mem_toDigits (by decide) (by decide) hc
      exact decide_eq_true fun he => by rw [he] at hdigit; cases hdigit
    rw [String.toList_append, String.toList_append, List.reverse_append, List.reverse_append,
      List.takeWhile_append_of_pos hdigits]
    simp
  have hsame := hread m i
  rw [h, hread n j, List.reverse_inj, Nat.toString_eq_repr, Nat.toString_eq_repr, Nat.toList_repr,
    Nat.toList_repr] at hsame
  rw [← Nat.ofDigitChars_ten_toDigits (n := i), ← hsame, Nat.ofDigitChars_ten_toDigits]

theorem Poly.symbol_inj {a b : Symbol} : Poly.symbol a = .symbol b ↔ a = b := by
  simp [Poly.symbol]

namespace Func

variable {f : Func} {v w : Value} {e : BlockId}

/-- A parameter or an instruction of the function. -/
def Opaque (f : Func) : Value → Prop
  | .const _ => False
  | .param k => k < f.params.length
  | .inst i => i.index < f.insts.size

/-- What an instruction is called: its name, or its number. -/
def instName (f : Func) (i : InstId) : String :=
  ((f.inst? i).bind (·.name)).getD ("v" ++ toString i.index)

/-- Two values that go by one name: two parameters of the same name, or a parameter that is called
like an instruction with its number. -/
def Namesakes (f : Func) : Value → Value → Prop
  | .param j, .param k => f.params[j]?.map (·.name) = f.params[k]?.map (·.name)
  | .param k, .inst i | .inst i, .param k =>
    f.params[k]?.map (·.name) = some (f.instName i ++ "#" ++ toString i.index)
  | _, _ => False

theorem symbolName_inst (f : Func) (i : InstId) :
    f.symbolName (.inst i) = "%" ++ (f.instName i ++ "#" ++ toString i.index) := by
  rw [symbolName, valueName, instName]
  cases (f.inst? i).bind (·.name) with
  | none =>
    rw [show "%v" = "%" ++ "v" from rfl]
    simp only [Option.getD_none, String.append_assoc]
  | some n => simp only [Option.getD_some, String.append_assoc]

theorem symbolName_param {k : Nat} (hk : k < f.params.length) :
    f.symbolName (.param k) = "%" ++ f.params[k].name := by
  simp [symbolName, valueName, hk]

theorem symbolName_eq_iff (hv : f.Opaque v) (hw : f.Opaque w) (hne : v ≠ w) :
    f.symbolName v = f.symbolName w ↔ f.Namesakes v w := by
  have hcancel : ∀ m n, "%" ++ m = "%" ++ n ↔ m = n := fun _ _ => String.append_right_inj "%"
  cases v with
  | const => exact hv.elim
  | param j =>
    cases w with
    | const => exact hw.elim
    | param k =>
      rw [symbolName_param hv, symbolName_param hw, hcancel, Namesakes, List.getElem?_eq_getElem hv,
        List.getElem?_eq_getElem hw, Option.map_some, Option.map_some, Option.some_inj]
    | inst i =>
      rw [symbolName_param hv, symbolName_inst, hcancel, Namesakes, List.getElem?_eq_getElem hv,
        Option.map_some, Option.some_inj]
  | inst i =>
    cases w with
    | const => exact hw.elim
    | param k =>
      rw [symbolName_param hw, symbolName_inst, hcancel, Namesakes, List.getElem?_eq_getElem hw,
        Option.map_some, Option.some_inj, eq_comm]
    | inst j =>
      rw [symbolName_inst, symbolName_inst, hcancel]
      refine ⟨fun h => hne ?_, False.elim⟩
      rw [show i = j from congrArg InstId.mk (eq_of_marked h)]

theorem opaque_of_mem_values (hw : f.WellFormed e) (h : v ∈ f.values) : f.Opaque v := by
  rcases List.mem_append.1 h with h | h
  · obtain ⟨k, hk, rfl⟩ := List.mem_map.1 h
    exact List.mem_range.1 hk
  · obtain ⟨i, hi, rfl⟩ := List.mem_map.1 h
    obtain ⟨b, hb, hi⟩ := List.mem_flatMap.1 (List.mem_filter.1 hi).1
    obtain ⟨op, hop⟩ := hw.known b hb i hi
    obtain ⟨inst, hinst, -⟩ := Option.map_eq_some_iff.1 hop
    exact (Array.getElem?_eq_some_iff.1 hinst).1

theorem distinctNames_iff (hw : f.WellFormed e) : f.DistinctNames ↔
    ∀ v ∈ f.values, ∀ w ∈ f.values, v ≠ w → ¬ f.Namesakes v w := by
  have hnodup : f.values.Nodup := by
    refine List.nodup_append'.2 ⟨List.nodup_range.map fun _ _ => Value.param.inj,
      (hw.nodup_liveInsts.filter _).map fun _ _ => Value.inst.inj, fun v hv hv' => ?_⟩
    obtain ⟨k, -, rfl⟩ := List.mem_map.1 hv
    obtain ⟨i, -, hi⟩ := List.mem_map.1 hv'
    cases hi
  rw [DistinctNames, List.nodup_map_iff_inj_on hnodup]
  refine forall₂_congr fun v hv => forall₂_congr fun w hw' => ?_
  rw [← not_imp_not]
  refine imp_congr_right fun hne => not_congr ?_
  exact symbolName_eq_iff (opaque_of_mem_values hw hv) (opaque_of_mem_values hw hw') hne

/-- The symbols of two values are the same, whenever they are asked for in a run of the program,
exactly if the values are namesakes. -/
theorem unknown_eq_iff (f : Func) {v w : Value} (hv : f.Opaque v) (hw : f.Opaque w) (hne : v ≠ w)
    (s s' : Session) (hs : (f.unknown v s).2.symbols ≤ s'.symbols) :
    (f.unknown v s).1 = (f.unknown w s').1 ↔ f.Namesakes v w := by
  rw [← symbolName_eq_iff hv hw hne]
  have hname := SymbolTable.name?_of_le
    (SymbolTable.le_trans hs (SymbolTable.intern_le s'.symbols (f.symbolName w)))
    (SymbolTable.name?_intern s.symbols (f.symbolName v))
  change Poly.symbol (s.symbols.intern _).1 = Poly.symbol (s'.symbols.intern _).1 ↔ _
  rw [Poly.symbol_inj]
  constructor
  · intro h
    rw [h, SymbolTable.name?_intern] at hname
    exact (Option.some.inj hname).symm
  · intro h
    have hs : (s.symbols.intern (f.symbolName v)).2 ≤ s'.symbols := hs
    rw [← h, SymbolTable.intern_of_le hs]

end Func

open Build in
/-- A store and a load in one array, at `n` and at `n + 1` for two parameters `n`, and a parameter
that is called like what the load reads. -/
def Func.namedAlike : Func := .build "f" do
  let a ← param "A" .ptr
  let n ← param "n" .int
  let m ← param "n" .int
  discard <| param "v4#4" .int
  discard <| emit (.store (← value (.gep a n)) (.const 7))
  let x ← value (.load (← value (.gep a (← value (.binary .add m (.const 1))))))
  discard <| emit (.ret (some x))

/-- Two parameters share a symbol, and so do a parameter and an instruction. That the store and the
load may meet goes unnoticed. -/
theorem Func.unknown_shared_namedAlike : Func.namedAlike.verify = .ok () ∧
    (Func.namedAlike.unknown (.param 1) .start).1 = (Func.namedAlike.unknown (.param 2)
      (Func.namedAlike.unknown (.param 1) .start).2).1 ∧
    (Func.namedAlike.unknown (.param 3) .start).1 = (Func.namedAlike.unknown (.inst ⟨4⟩)
      (Func.namedAlike.unknown (.param 3) .start).2).1 ∧
    (Oracle.answer .namedAlike Func.namedAlike.forest (.ofFunc .namedAlike Func.namedAlike.forest)
      ⟨1⟩ ⟨4⟩ true .start).1 = none := by
  exact ⟨eq_ok_of_isOk (by decide +kernel), by decide +kernel, by decide +kernel, by decide +kernel⟩

/-- The first of the two parameters and what the load reads are told apart. -/
theorem Func.unknown_eq_iff_namedAlike : (Func.namedAlike.unknown (.param 1) .start).1 ≠
    (Func.namedAlike.unknown (.inst ⟨4⟩) (Func.namedAlike.unknown (.param 1) .start).2).1 := by
  have hparam : Func.namedAlike.Opaque (.param 1) := show 1 < _ by decide
  have hinst : Func.namedAlike.Opaque (.inst ⟨4⟩) := show 4 < _ by decide +kernel
  refine (unknown_eq_iff .namedAlike hparam hinst nofun .start _ (SymbolTable.le_refl _)).not.2 ?_
  change ¬ Option.map _ _ = _
  decide +kernel

end LoopFusion
