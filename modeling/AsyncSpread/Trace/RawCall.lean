import AsyncSpread.Disk.Path
import AsyncSpread.Text.Blank
import AsyncSpread.Text.Decimal

/-!
Calls as a profiler records them.  It names a function by its file, its name and the line of its
definition.
-/

namespace AsyncSpread.Trace

/-- Splits a function id `name:line` at its last colon, since names may hold colons themselves. -/
def splitFunctionId? (id : String) : Option (String × Nat) := do
  let (name, line) ← Text.cutLast? ':' id.toList
  some (String.ofList name, ← Text.readCount? (Text.trim line))

/-- A function of a trace, with the parts of its id. -/
structure Frame where
  file : Path
  id : String
  name : String
  /-- The line of the definition, as the profiler reports it. -/
  line : Nat
deriving DecidableEq, Repr

def Frame.of? (file : Path) (id : String) : Option Frame :=
  (splitFunctionId? id).map fun (name, line) => ⟨file, id, name, line⟩

structure RawCall where
  caller : Frame
  callee : Frame
  /-- The line of the call in the file of the caller. -/
  callLine : Nat
deriving DecidableEq, Repr

/-- What a call of the callee looks like: `f()` and `object.f()` are both written with the last
name. -/
def RawCall.literal (c : RawCall) : String := shortName c.callee.name

end AsyncSpread.Trace
