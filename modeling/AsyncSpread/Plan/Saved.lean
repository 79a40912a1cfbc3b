import AsyncSpread.Json.Fields
import AsyncSpread.Json.Reader
import AsyncSpread.Plan

/-!
Plans as JSON.
-/

namespace AsyncSpread

namespace CallKey

def toJson (k : CallKey) : Json :=
  .ofMembers [("caller", .text k.caller), ("callee_name", .text k.callee)]

def ofJson? (v : Json) : Option CallKey := do
  match ← (← v.allFields? ["caller", "callee_name"]).mapM Json.text? with
  | [caller, callee] => some ⟨caller, callee⟩
  | _ => none

end CallKey

namespace Plan

def toJson (p : Plan) : Json := .ofMembers [
  ("funcs_to_async", .ofTexts p.functions.toList),
  ("calls_to_await", .list (p.calls.toList.map CallKey.toJson)),
  ("tests_to_async", .ofTexts p.tests.toList)]

/-- Reads a plan as it stands: a test need not be among the functions. -/
def ofJson? (v : Json) : Option Plan := do
  match ← v.allFields? ["funcs_to_async", "calls_to_await", "tests_to_async"] with
  | [functions, calls, tests] =>
    some ⟨.ofList (← functions.texts?), .ofList (← calls.listOf? CallKey.ofJson?),
      .ofList (← tests.texts?)⟩
  | _ => none

def save [Json.Codec] (p : Plan) : String := Json.Codec.write .compact p.toJson

def load? [Json.Codec] (s : String) : Option Plan := (Json.Codec.read? s).bind ofJson?

end Plan

end AsyncSpread
