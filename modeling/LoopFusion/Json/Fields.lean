import LoopFusion.Arith.Checked
import LoopFusion.Json.Basic

/-!
Taking records and alternatives out of JSON. A record is an object, where unknown members are
skipped and known ones stand at most once, or the array of its fields in order. An alternative is
its name, or an object whose only member has that name.
-/

namespace LoopFusion.Json

/-- What stands where a record expects a field. -/
inductive Slot
  | given (j : Json)
  /-- Not a member of the object. -/
  | absent
  /-- Behind the end of the array. -/
  | cut

namespace Slot

def required {α : Type} (decode : Json → Option α) : Slot → Option α
  | given j => decode j
  | _ => none

/-- A field with a value for the case that it is missing. -/
def withDefault {α : Type} (a : α) (decode : Json → Option α) : Slot → Option α
  | given j => decode j
  | _ => some a

/-- A field that may be null, and may be left out of an object. -/
def optional {α : Type} (decode : Json → Option (Option α)) : Slot → Option (Option α)
  | given j => decode j
  | absent => some none
  | cut => none

end Slot

/-- The slot for one name among the members of an object. -/
def slotOf? (members : List (String × Json)) (name : String) : Option Slot :=
  match members.filter fun m => m.1 == name with
  | [] => some .absent
  | [m] => some (.given m.2)
  | _ => none

/-- Slots for as many fields as expected. -/
def slotsOfArray : Nat → List Json → Option (List Slot)
  | 0, [] => some []
  | 0, _ :: _ => none
  | n + 1, [] => (slotsOfArray n []).map (.cut :: ·)
  | n + 1, j :: js => (slotsOfArray n js).map (.given j :: ·)

def fields? (names : List String) : Json → Option (List Slot)
  | obj members => names.mapM (slotOf? members)
  | arr elements => slotsOfArray names.length elements
  | _ => none

/-- The name and the content of an alternative. -/
def variant? : Json → Option (String × Option Json)
  | str name => some (name, none)
  | obj [(name, j)] => some (name, some j)
  | _ => none

/-- The name of an alternative without content. -/
def plainVariant? (j : Json) : Option String :=
  match variant? j with
  | some (name, none) | some (name, some null) => some name
  | _ => none

def str? : Json → Option String
  | str s => some s
  | _ => none

def bool? : Json → Option Bool
  | bool b => some b
  | _ => none

def int? : Json → Option Int
  | int n => some n
  | _ => none

/-- A number below a bound. -/
def natBelow? (bound : Nat) (j : Json) : Option Nat := do
  let n ← int? j
  if 0 ≤ n && n < bound then some n.toNat else none

def int64? (j : Json) : Option Int64 := (int? j).bind LoopFusion.word?

def handle? (j : Json) : Option Nat := natBelow? UInt32.size j

def list? {α : Type} (decode : Json → Option α) : Json → Option (List α)
  | arr elements => elements.mapM decode
  | _ => none

def nullable? {α : Type} (decode : Json → Option α) : Json → Option (Option α)
  | null => some none
  | j => (decode j).map some

end LoopFusion.Json
