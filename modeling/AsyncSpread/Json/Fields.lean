import AsyncSpread.Json.Value
import AsyncSpread.Text.Decimal

/-!
Reading things out of JSON values.

Something with named fields is written as a record or, shorter, as the list of its fields in their
order.  A record may have members that are not known, but none of its fields twice.
-/

namespace AsyncSpread.Json

def text? : Json → Option String
  | .text s => some s
  | _ => none

def count? : Json → Option Nat
  | .whole n => if n < Text.countLimit then some n else none
  | _ => none

def flag? : Json → Option Bool
  | .flag b => some b
  | _ => none

def maybeCount? : Json → Option (Option Nat)
  | .null => some none
  | v => v.count?.map some

def listOf? {α : Type} (item? : Json → Option α) : Json → Option (List α)
  | .list vs => vs.mapM item?
  | _ => none

def texts? : Json → Option (List String) := listOf? text?

def membersNamed (name : String) (members : List (Option String × Json)) : List Json :=
  members.filterMap fun (k, v) => if k = some name then some v else none

/-- The values of the named fields, each `none` if it is missing. -/
def fields? (names : List String) : Json → Option (List (Option Json))
  | .list vs =>
    if vs.length ≤ names.length then
      some (vs.map some ++ List.replicate (names.length - vs.length) none)
    else none
  | .record members =>
    if members.any (fun (k, _) => k.isNone) || names.any
      (fun n => 1 < (membersNamed n members).length)
    then none
    else some (names.map fun n => (membersNamed n members).head?)
  | _ => none

/-- The values of the named fields, none of which may be missing. -/
def allFields? (names : List String) (v : Json) : Option (List Json) := do
  (← fields? names v).mapM id

end AsyncSpread.Json
