import AsyncSpread.Calls.Graph
import AsyncSpread.Json.Fields
import AsyncSpread.Json.Reader

/-!
Call graphs as JSON.  Only the functions and the calls are saved; everything else that a graph holds
follows from them.
-/

namespace AsyncSpread

namespace Calls

namespace Function

def toJson (f : Function) : Json := .ofMembers [
  ("id", .whole f.id), ("qualified_name", .text f.name), ("file", .text f.file.text),
  ("line", .whole f.line)]

def ofJson? (v : Json) : Option Function := do
  match ← v.allFields? ["id", "qualified_name", "file", "line"] with
  | [id, name, file, line] => some ⟨← id.count?, ← name.text?, ⟨← file.text?⟩, ← line.count?⟩
  | _ => none

end Function

namespace Call

def toJson (c : Call) : Json := .ofMembers [
  ("caller", .whole c.caller), ("callee", .whole c.callee), ("name", .text c.name),
  ("call_line", .whole c.line)]

def ofJson? (v : Json) : Option Call := do
  match ← v.allFields? ["caller", "callee", "name", "call_line"] with
  | [caller, callee, name, line] =>
    some ⟨← caller.count?, ← callee.count?, ← name.text?, ← line.count?⟩
  | _ => none

end Call

namespace Registry

def toJson (r : Registry) : Json :=
  .ofMembers [("functions", .list (r.functions.map Function.toJson))]

def ofJson? (v : Json) : Option Registry := do
  match ← v.allFields? ["functions"] with
  | [functions] => some ⟨← functions.listOf? Function.ofJson?, []⟩
  | _ => none

def save [Json.Codec] (r : Registry) : String := Json.Codec.write .compact r.toJson

def load? [Json.Codec] (s : String) : Option Registry := (Json.Codec.read? s).bind ofJson?

end Registry

end Calls

open Calls

namespace CallGraph

def toJson (g : CallGraph) : Json := .ofMembers [
  ("registry", g.registry.toJson), ("calls", .list (g.calls.map Call.toJson))]

def ofJson? (v : Json) : Option CallGraph := do
  match ← v.allFields? ["registry", "calls"] with
  | [registry, calls] =>
    some (reindex ⟨← Registry.ofJson? registry, ← calls.listOf? Call.ofJson?, ∅, ∅, ∅⟩)
  | _ => none

def save [Json.Codec] (g : CallGraph) : String := Json.Codec.write .pretty g.toJson

def load? [Json.Codec] (s : String) : Option CallGraph := (Json.Codec.read? s).bind ofJson?

end CallGraph

end AsyncSpread
