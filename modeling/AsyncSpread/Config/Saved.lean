import AsyncSpread.Fault
import AsyncSpread.Json.Fields
import AsyncSpread.Json.Reader

/-!
Configurations as JSON.  A field that is missing has its standard value.
-/

namespace AsyncSpread.Config

def fieldOr {α : Type} (standard : α) (read? : Json → Option α) : Option Json → Option α
  | none => some standard
  | some v => read? v

def ofJson? (v : Json) : Option Config := do
  let d := standard
  match ← v.fields? ["marker_module", "marker_decorator", "test_prefix", "file_extensions",
      "exclude_dirs", "max_file_size", "parallel", "num_threads", "dry_run"] with
  | [module, decorator, beginning, extensions, dirs, size, parallel, threads, dry] =>
    some {
      markerModule := ← fieldOr d.markerModule Json.text? module
      markerDecorator := ← fieldOr d.markerDecorator Json.text? decorator
      testPrefix := ← fieldOr d.testPrefix Json.text? beginning
      fileExtensions := ← fieldOr d.fileExtensions Json.texts? extensions
      excludeDirs := ← fieldOr d.excludeDirs Json.texts? dirs
      maxFileSize := ← fieldOr d.maxFileSize Json.count? size
      parallel := ← fieldOr d.parallel Json.flag? parallel
      numThreads := ← fieldOr d.numThreads Json.maybeCount? threads
      dryRun := ← fieldOr d.dryRun Json.flag? dry }
  | _ => none

def load? [Json.Codec] (s : String) : Option Config := (Json.Codec.read? s).bind ofJson?

def ofFile [Json.Codec] (disk : Disk) (path : Path) : Except AsyncSpread.Fault Config :=
  match disk.readText path with
  | .error why => .error (.file path why)
  | .ok text =>
    match load? (String.ofList text) with
    | none => .error (.notConfig path)
    | some c =>
      match c.validate with
      | .error why => .error (.config why)
      | .ok () => .ok c

end AsyncSpread.Config
