import LoopFusion.Ir.Encoding
import LoopFusion.Memory.Dependence

/-!
Dependences as JSON documents.
-/

namespace LoopFusion

namespace Encode

open Json (int str obj arr bool)

def dependenceKind : DependenceKind → Json
  | .flow => str "Flow"
  | .anti => str "Anti"
  | .output => str "Output"
  | .input => str "Input"

def direction : Direction → Json
  | .lt => str "Lt"
  | .eq => str "Eq"
  | .gt => str "Gt"
  | .star => str "Star"

/-- A dependence with its description; the flags tell the kinds apart. -/
def dependence (f : Func) (d : Dependence) : Json :=
  obj [("src", instId d.src), ("dst", instId d.dst), ("kind", dependenceKind d.kind),
    ("direction", direction d.direction), ("distance", .ofOption int d.distance?),
    ("confused", bool d.confused),
    ("is", arr [bool (d.kind = .input), bool (d.kind = .output), bool (d.kind = .flow),
      bool (d.kind = .anti)]),
    ("text", str (d.text f))]

end Encode

namespace Decode

open Json (plainVariant?)

def dependenceKind (j : Json) : Option DependenceKind := do
  match ← plainVariant? j with
  | "Flow" => some .flow
  | "Anti" => some .anti
  | "Output" => some .output
  | "Input" => some .input
  | _ => none

def direction (j : Json) : Option Direction := do
  match ← plainVariant? j with
  | "Lt" => some .lt
  | "Eq" => some .eq
  | "Gt" => some .gt
  | "Star" => some .star
  | _ => none

end Decode

end LoopFusion
