import LoopFusion.CommandLine
import LoopFusion.Proofs.Ir.Encoding

/-!
What a run emits as JSON is read back as the module it was emitted for, whether it goes to a file or
to the terminal.
-/

namespace LoopFusion.CommandLine

/-- What a run hands over: the content of the file to be written, or else what is printed. -/
def Outcome.emitted (r : Outcome) : String := (r.file?.map (·.2)).getD r.stdout

theorem emitted_finish (o : Options) (s : Session) (text : String) :
    ∃ t : String, Json.Blank t.toList ∧ (finish o s (.ok text)).emitted = text ++ t := by
  cases hpath : o.output? with
  | none =>
    exact ⟨"\n", by simp [Json.Blank, Json.isBlank], by simp [finish, hpath, Outcome.emitted]⟩
  | some path => exact ⟨"", by simp [Json.Blank], by simp [finish, hpath, Outcome.emitted]⟩

/-- Nothing of a module is lost in its document: neither retired blocks nor missing names, nor any
character or number. -/
theorem parse_emitted (o : Options) (s : Session) (m : Module) (reports : List FusionReport)
    (ho : o.emit? = some .json) (hm : m.Addressable) :
    Module.parse (finish o s (.ok (product o m reports))).emitted = some m ∧
      Module.parse m.compactDocument = some m := by
  obtain ⟨t, ht, hemitted⟩ := emitted_finish o s (product o m reports)
  have hproduct : product o m reports = m.document := by simp [product, ho]
  have hcompact := Module.parse_compactDocument hm (t := "") (by simp [Json.Blank])
  rw [String.append_empty] at hcompact
  rw [hemitted, hproduct]
  exact ⟨Module.parse_document hm ht, hcompact⟩

def everyKind : Module :=
  ⟨"tab\tquote\"\x00", [⟨"größe\x1f😀", [⟨"A\\", .ptr⟩, ⟨"n\n", .int⟩],
    #[⟨"entry", [⟨0⟩, ⟨1⟩], false⟩, ⟨"\x7f", [], true⟩],
    #[⟨.phi [], ⟨0⟩, none⟩, ⟨.phi [(⟨4294967295⟩, .const Int64.minValue), (⟨0⟩, .param 7)], ⟨0⟩,
        some ""⟩,
      ⟨.binary .sub (.inst ⟨4294967295⟩) (.const Int64.maxValue), ⟨1⟩, some "\x01"⟩,
      ⟨.compare .sge (.param 1) (.const 0), ⟨1⟩, none⟩, ⟨.gep (.param 0) (.inst ⟨1⟩), ⟨1⟩, none⟩,
      ⟨.load (.inst ⟨4⟩), ⟨1⟩, none⟩, ⟨.store (.inst ⟨4⟩) (.inst ⟨5⟩), ⟨1⟩, none⟩,
      ⟨.br ⟨2⟩, ⟨1⟩, none⟩, ⟨.condBr (.inst ⟨3⟩) ⟨0⟩ ⟨1⟩, ⟨1⟩, none⟩,
      ⟨.ret none, ⟨1⟩, none⟩, ⟨.ret (some (.const (-1))), ⟨1⟩, none⟩],
    [⟨0⟩]⟩]⟩

theorem parse_emitted_everyKind :
    everyKind.Addressable ∧
    Module.parse (finish { Options.none with emit? := some .json } .start
      (.ok (product { Options.none with emit? := some .json } everyKind []))).emitted =
        some everyKind ∧
    Module.parse everyKind.compactDocument = some everyKind := by
  have haddressable : everyKind.Addressable := by
    refine List.forall_mem_singleton.2 ⟨?_, ?_, ?_⟩ <;>
      simp [Block.Addressable, Inst.Addressable, Operation.Addressable, Value.Addressable,
        BlockId.Addressable, InstId.Addressable, UInt32.size]
    rintro b v (⟨rfl, rfl⟩ | ⟨rfl, rfl⟩) <;> simp
  exact ⟨haddressable, parse_emitted _ _ _ _ rfl haddressable⟩

end LoopFusion.CommandLine
