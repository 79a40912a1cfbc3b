import AsyncSpread.Disk
import AsyncSpread.Text.Blank

/-!
The records of a trace: lines `key=value`.

A value may be compressed: `(id) name` gives a name to an id, and `(id)` stands for the name it got
last.  Files and functions have ids of their own.
-/

namespace AsyncSpread.Trace

inductive RecordKey where
  /-- The next line is a call of the callee by the caller. -/
  | calls
  | callerFile
  | callerName
  | calleeFile
  | calleeName
  /-- A file that is not followed, but may give a name to an id. -/
  | inlinedFile
deriving DecidableEq, Repr

/-- The keys as they are written.  A key is recognised by how a line begins, and of two keys the one
in front counts. -/
def recordKeys : List (String × RecordKey) := [
  ("calls", .calls), ("cfl", .calleeFile), ("cfi", .calleeFile), ("cfn", .calleeName),
  ("fl", .callerFile), ("fi", .inlinedFile), ("fe", .inlinedFile), ("fn", .callerName)]

def recordKey? (line : List Char) : Option RecordKey :=
  (recordKeys.find? fun (written, _) => written.toList.isPrefixOf line).map (·.2)

/-- The names that ids stand for, the latest first. -/
abbrev NameTable := List (List Char × List Char)

def NameTable.get? (t : NameTable) (id : List Char) : Option (List Char) :=
  (t.find? fun (i, _) => i == id).map (·.2)

/-- Expands a value and notes the name it gives to an id.  An id without a name has no expansion. -/
def NameTable.expand? (t : NameTable) (value : List Char) : Option (List Char × NameTable) :=
  let value := Text.trim value
  match value with
  | '(' :: rest =>
    match Text.cutFirst? ')' rest with
    | none => some (value, t)
    | some (id, name) =>
      let name := Text.trim name
      if name.isEmpty then (t.get? id).map fun found => (found, t)
      else some (name, (id, name) :: t)
  | _ => some (value, t)

/-- The file that a value names.  A profiler may tell versions of a file apart by a mark behind its
extension, as in `mod.py_2`; the mark is dropped unless there is a file of just that name. -/
def fileNamed (disk : Disk) (value : List Char) : Path :=
  let path : Path := ⟨String.ofList (Text.trim value)⟩
  if disk.exists_ path then path
  else match path.extension? with
    | none => path
    | some extension =>
      match Text.cutFirst? '_' extension.toList with
      | some (real, _) => path.withExtension (String.ofList real)
      | none => path

end AsyncSpread.Trace
