import LoopFusion.Failure
import LoopFusion.FileTree
import LoopFusion.Fusion.Encoding
import LoopFusion.Ir.Print
import LoopFusion.Text.Quoted

/-!
The command line: reading arguments, running the pass on a module document, and what is printed.
-/

namespace LoopFusion

def version : String := "0.1.0"

namespace CommandLine

inductive Emit
  | ir
  | json
  | report
deriving DecidableEq

/-- What the arguments ask for; a missing part has not been given. -/
structure Options where
  input? : Option String
  output? : Option String
  emit? : Option Emit
  single : Bool
  maxFusions? : Option Nat
  noOutputDeps : Bool
  noVerify : Bool
  verbosity : Nat
  quiet : Bool

namespace Options

def none : Options := ⟨.none, .none, .none, false, .none, false, false, 0, false⟩

def config (o : Options) : FusionConfig :=
  let c := if o.single then FusionConfig.single else .standard
  { c with
    maxFusions? := o.maxFusions? <|> c.maxFusions?
    keepOutputs := !o.noOutputDeps
    verify := !o.noVerify }

/-- The least important level that is printed. -/
def threshold (o : Options) : Level :=
  if o.quiet then .error
  else
    match o.verbosity with
    | 0 => .warn
    | 1 => .info
    | 2 => .debug
    | _ => .trace

end Options

/-- Why arguments lead to no run. -/
inductive Stop
  | usage
  | showHelp
  | showVersion

abbrev Parsing := Except Stop

def misuse {α : Type} : Parsing α := .error .usage

/-- A switch may be given once. -/
def once (given : Bool) (o : Options) : Parsing Options := if given then misuse else .ok o

def switch (o : Options) : String → Parsing Options
  | "single-fusion" => once o.single { o with single := true }
  | "no-output-deps" => once o.noOutputDeps { o with noOutputDeps := true }
  | "no-verify" => once o.noVerify { o with noVerify := true }
  | "quiet" => once o.quiet { o with quiet := true }
  | "verbose" => .ok { o with verbosity := o.verbosity + 1 }
  | "help" => .error .showHelp
  | "version" => .error .showVersion
  | _ => misuse

/-- A number that fits 64 bits, possibly behind a plus sign. -/
def count? (s : String) : Option Nat := do
  let cs := s.toList
  let ds := if cs.head? = some '+' then cs.tail else cs
  guard (!ds.isEmpty && ds.all Json.isDigit && Json.digitsValue ds < UInt64.size)
  return Json.digitsValue ds

def emitOf? : String → Option Emit
  | "ir" => some .ir
  | "json" => some .json
  | "report" => some .report
  | _ => none

/-- Set an option that takes a value; it may be given once. -/
def setting (o : Options) (name value : String) : Parsing Options :=
  match name with
  | "output" => once (o.output?.isSome || value.isEmpty) { o with output? := some value }
  | "emit" => once (o.emit?.isSome || (emitOf? value).isNone) { o with emit? := emitOf? value }
  | "max-fusions" =>
    once (o.maxFusions?.isSome || (count? value).isNone) { o with maxFusions? := count? value }
  | _ => misuse

def takesValue (name : String) : Bool := name = "output" || name = "emit" || name = "max-fusions"

def positional (o : Options) (s : String) : Parsing Options :=
  once (o.input?.isSome || s.isEmpty) { o with input? := some s }

/-- Whether an argument reads as an option rather than as a value. -/
def isFlag (s : String) : Bool := s.toList.head? = some '-' && s ≠ "-"

/-- The text before the first equals sign, and the text behind it if there is one. -/
def splitEquals (cs : List Char) : String × Option String :=
  (String.ofList (cs.takeWhile (· ≠ '=')),
    match cs.dropWhile (· ≠ '=') with
    | [] => none
    | _ :: value => some (String.ofList value))

/-- What the value of a pending option turns out to be. -/
inductive Step
  | done (o : Options)
  /-- The next argument is the value of this option. -/
  | awaits (o : Options) (name : String)

/-- An option with two dashes. -/
def long (o : Options) (cs : List Char) : Parsing Step :=
  match splitEquals cs with
  | (name, some value) => (setting o name value).map .done
  | (name, none) => if takesValue name then .ok (.awaits o name) else (switch o name).map .done

def shortName : Char → String
  | 'v' => "verbose"
  | 'q' => "quiet"
  | 'h' => "help"
  | 'V' => "version"
  | _ => ""

/-- Letters behind one dash; the letter for the output takes the rest as its value. -/
def short (o : Options) : List Char → Parsing Step
  | [] => .ok (.done o)
  | ['o'] => .ok (.awaits o "output")
  | 'o' :: '=' :: value => (setting o "output" (String.ofList value)).map .done
  | 'o' :: value => (setting o "output" (String.ofList value)).map .done
  | c :: cs => do short (← switch o (shortName c)) cs

def step (o : Options) (arg : String) : Parsing Step :=
  match arg.toList with
  | '-' :: '-' :: cs => long o cs
  | ['-'] => (positional o arg).map .done
  | '-' :: cs => short o cs
  | _ => (positional o arg).map .done

mutual

def parseFrom (o : Options) : List String → Parsing Options
  | [] => .ok o
  | arg :: rest =>
    if arg = "--" then rest.foldlM positional o
    else
      match step o arg with
      | .error e => .error e
      | .ok (.done o) => parseFrom o rest
      | .ok (.awaits o name) => parseValue o name rest

/-- The value of an option, then the remaining arguments. -/
def parseValue (o : Options) (name : String) : List String → Parsing Options
  | [] => misuse
  | value :: rest =>
    if isFlag value then misuse
    else
      match setting o name value with
      | .error e => .error e
      | .ok o => parseFrom o rest

end

/-- The options behind the arguments, with the name of the input. -/
def parse (args : List String) : Parsing (Options × String) := do
  let o ← parseFrom .none args
  match o.input? with
  | some input => return (o, input)
  | none => misuse

/-- What a run leaves behind. -/
structure Outcome where
  exit : Nat
  stdout : String
  stderr : String
  /-- A file to be written. -/
  file? : Option (String × String)

def Stop.outcome : Stop → Outcome
  | usage => ⟨2, "", "error: invalid arguments\n\nUsage: loopfuse [OPTIONS] <FILE>\n", none⟩
  | showHelp => ⟨0, "Usage: loopfuse [OPTIONS] <FILE>\n", "", none⟩
  | showVersion => ⟨0, "loopfuse " ++ version ++ "\n", "", none⟩

def originText : Origin → String
  | .program => "loopfuse"
  | .legality => "loopfuse::transform::legality"
  | .fusion => "loopfuse::transform::fusion"
  | .pass => "loopfuse::transform::pipeline"

def padded (n : Nat) (s : String) : String :=
  s ++ String.ofList (List.replicate (n - s.length) ' ')

/-- Later lines of a text moved under its first. -/
def indented (indent s : String) : String := ("\n" ++ indent).intercalate (s.splitOn "\n")

def recordLine (r : LogRecord) : String :=
  "[" ++ padded 5 r.level.text ++ " " ++ originText r.origin ++ "] " ++ indented "    " r.message ++
    "\n"

/-- The records that are important enough, as printed. -/
def logText (threshold : Level) (records : List LogRecord) : String :=
  String.join ((records.filter (·.level.verbosity ≤ threshold.verbosity)).map recordLine)

def boolText (b : Bool) : String := if b then "true" else "false"

def configText (c : FusionConfig) : String :=
  "FusionConfig \x7b rescan_after_fusion: " ++ boolText c.rescan ++ ", max_fusions: " ++
    c.maxFusions?.elim "None" (fun n => "Some(" ++ toString n ++ ")") ++
    ", check_output_dependences: " ++ boolText c.keepOutputs ++ ", verify_after_fusion: " ++
    boolText c.verify ++ " \x7d"

def numberedCause (cause : String × Nat) : String :=
  "\n" ++ padLeft (toString cause.2) ++ ": " ++ indented "       " cause.1
where
  padLeft (s : String) : String := String.ofList (List.replicate (5 - s.length) ' ') ++ s

/-- An error with its causes, which are numbered when there are several. -/
def errorReport : List String → String
  | [] => ""
  | [message] => "Error: " ++ message ++ "\n"
  | [message, cause] =>
    "Error: " ++ message ++ "\n\nCaused by:\n    " ++ indented "    " cause ++ "\n"
  | message :: causes =>
    "Error: " ++ message ++ "\n\nCaused by:" ++
      String.join (causes.zipIdx.map numberedCause) ++ "\n"

/-- The end of a run: the log and either the product or a chain of messages. -/
def finish (o : Options) (s : Session) : Except (List String) String → Outcome
  | .error chain => ⟨1, "", logText o.threshold s.records ++ errorReport chain, none⟩
  | .ok text =>
    let log := logText o.threshold s.records
    match o.output? with
    | some path => ⟨0, "", log, some (path, text)⟩
    | none => ⟨0, text ++ "\n", log, none⟩

def product (o : Options) (m : Module) (reports : List FusionReport) : String :=
  match o.emit?.getD .ir with
  | .ir => m.render defaultWidth
  | .json => m.document
  | .report => (Json.ofList Encode.report reports).pretty

def program (level : Level) (message : String) : Inquiry Unit :=
  Inquiry.write level .program message

/-- Run the pass on a verified module. -/
def transform (o : Options) (m : Module) : Inquiry (Except (List String) String) := do
  program .debug ("Fusion config: " ++ configText o.config)
  match ← m.fuse o.config with
  | (.error e, _) => return .error e.chain
  | (.ok reports, m) =>
    let fused := reports.foldl (fun n r => n + r.fused.length) 0
    program .info ("Fused " ++ toString fused ++ " loop pairs across " ++ toString reports.length ++
      " functions")
    return .ok (product o m reports)

/-- Run on the content of the input file, or with the reason why it could not be read. -/
def process (o : Options) (input : String) (source : Except FileFault String) :
    Inquiry (Except (List String) String) := do
  program .info ("LoopFuse v" ++ version)
  program .debug ("Input file: " ++ Text.quoted input)
  match source with
  | .error fault =>
    return .error ["Failed to read input file: " ++ Text.quoted input, fault.text]
  | .ok text =>
    match Module.parse text with
    | none => return .error ["Failed to parse input module", "invalid module document"]
    | some m =>
      match m.verify with
      | .error v =>
        return .error
          ["Input module is malformed", (Failure.verification v.message).text, v.message]
      | .ok () => transform o m

def execute (o : Options) (input : String) (source : Except FileFault String) : Outcome :=
  let (result, session) := (process o input source).run .start
  finish o session result

/-- The outcome when the product could not be written. -/
def Outcome.unwritten (r : Outcome) (path : String) (fault : FileFault) : Outcome :=
  { r with
    exit := 1
    stderr := r.stderr ++
      errorReport ["Failed to write output file: " ++ Text.quoted path, fault.text]
    file? := none }

/-- A whole run on the files of a tree. -/
def runIn (t : FileTree) (args : List String) : Outcome :=
  match parse args with
  | .error stop => stop.outcome
  | .ok (o, input) =>
    let r := execute o input (t.read input)
    match r.file? with
    | none => r
    | some (path, _) =>
      match t.target path with
      | .ok _ => r
      | .error fault => r.unwritten path fault

end CommandLine

end LoopFusion
