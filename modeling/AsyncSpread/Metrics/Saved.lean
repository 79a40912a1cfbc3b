import AsyncSpread.Json.Fields
import AsyncSpread.Json.Reader
import AsyncSpread.Metrics

/-!
Metrics as JSON.  The time is saved in whole milliseconds.
-/

namespace AsyncSpread.Metrics

def savedMillis (m : Metrics) : Nat := min m.millis (Text.countLimit - 1)

def toJson (m : Metrics) : Json := .ofMembers [
  ("files_attempted", .whole m.attempted.toNat),
  ("files_succeeded", .whole m.succeeded.toNat),
  ("files_failed", .whole m.failed.toNat),
  ("files_changed", .whole m.changed.toNat),
  ("functions_made_async", .whole m.madeAsync.toNat),
  ("calls_awaited", .whole m.awaited.toNat),
  ("markers_added", .whole m.marked.toNat),
  ("imports_inserted", .whole m.importsAdded.toNat),
  ("total_transform_time", .whole m.savedMillis)]

def ofJson? (v : Json) : Option Metrics := do
  match ← (← v.allFields? ["files_attempted", "files_succeeded", "files_failed", "files_changed",
      "functions_made_async", "calls_awaited", "markers_added", "imports_inserted",
      "total_transform_time"]).mapM Json.count? with
  | [attempted, succeeded, failed, changed, madeAsync, awaited, marked, importsAdded, millis] =>
    some ⟨.ofNat attempted, .ofNat succeeded, .ofNat failed, .ofNat changed, .ofNat madeAsync,
      .ofNat awaited, .ofNat marked, .ofNat importsAdded, millis * 1000000⟩
  | _ => none

def save [Json.Codec] (m : Metrics) : String := Json.Codec.write .compact m.toJson

def load? [Json.Codec] (s : String) : Option Metrics := (Json.Codec.read? s).bind ofJson?

end AsyncSpread.Metrics
