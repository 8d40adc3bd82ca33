/-!
What stops the program, told apart by the part that gives up.
-/

namespace LoopFusion

inductive Failure
  | verification (message : String)
  | legality (message : String)
  | transformation (message : String)
  | internal (message : String)
deriving DecidableEq

/-- The message with the part that gives it. -/
def Failure.text : Failure → String
  | verification message => "Verification error: " ++ message
  | legality message => "Legality error: " ++ message
  | transformation message => "Transformation error: " ++ message
  | internal message => "Internal error: " ++ message

end LoopFusion
