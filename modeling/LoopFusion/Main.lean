import LoopFusion.CommandLine

/-!
The program: arguments in, files read and written, texts printed.
-/

namespace LoopFusion.Program

open CommandLine (Outcome)

def faultOf : IO.Error → FileFault
  | .noFileOrDirectory .. => .missing
  | .inappropriateType _ 20 _ => .notDirectory
  | .inappropriateType _ 21 _ => .isDirectory
  | .invalidArgument _ 36 _ => .nameTooLong
  | e => .other e.toString

/-- The content of a file, or why it cannot be read. -/
def readSource (path : String) : IO (Except FileFault String) := do
  try
    return .ok (← (← IO.FS.Handle.mk path .read).readToEnd)
  catch e =>
    return .error (faultOf e)

/-- Write the product of a run to its file, if it has one. -/
def store (r : Outcome) : IO Outcome := do
  match r.file? with
  | none => return r
  | some (path, text) =>
    try
      IO.FS.writeFile path text
      return r
    catch e =>
      return r.unwritten path (faultOf e)

def run (args : List String) : IO Outcome := do
  match CommandLine.parse args with
  | .error stop => return stop.outcome
  | .ok (o, input) => store (CommandLine.execute o input (← readSource input))

end LoopFusion.Program

def main (args : List String) : IO UInt32 := do
  let r ← LoopFusion.Program.run args
  IO.print r.stdout
  IO.eprint r.stderr
  return r.exit.toUInt32
