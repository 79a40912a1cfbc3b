import AsyncSpread.Profile

/-!
Where a function is defined.  A profiler may report the line of a function's first decorator; the
definition is the next line that looks like one.
-/

namespace AsyncSpread.Source

open Trace

def looksLikeDefinition (name line : List Char) : Bool :=
  Text.occursIn name line
    && (Text.occursIn "def ".toList line || Text.occursIn "class ".toList line)

/-- The number of the first line from a number on that looks like the definition of a name. -/
def definitionLine? (name : List Char) (lines : List (List Char)) (reported : Nat) : Option Nat :=
  ((lines.zipIdx.drop reported).find? fun (line, _) => looksLikeDefinition name line).map (·.2)

/-- Names such as `<module>`, behind which there is no definition. -/
def isSynthetic (name : String) : Bool :=
  name.toList.head? == some '<' && name.toList.getLast? == some '>'

/-- The line where a function is defined, `none` if it is not found.  What has no source keeps its
reported line. -/
def resolveLine (disk : Disk) (file : Path) (name : String) (reported : Nat) (c : Cache) :
    Except Profile.Fault (Option Nat × Cache) :=
  if isSynthetic name || isSynthetic file.text then .ok (some reported, c)
  else match c.lines disk file with
    | .error e => .error (.source e)
    | .ok (ls, c) => .ok (definitionLine? name.toList ls reported, c)

/-- A function with the line where it is defined; one that is not found keeps its line. -/
def moved (f : Frame) (line : Option Nat) : Frame := { f with line := line.getD f.line }

/-- Corrects the lines of both functions of a call, and tells whether both were found.  What has
been read stays in the cache also when a source cannot be read. -/
def resolveCall (disk : Disk) (raw : RawCall) (c : Cache) :
    Cache × Except Profile.Fault (RawCall × Bool) :=
  match resolveLine disk raw.caller.file raw.caller.name raw.caller.line c with
  | .error e => (c, .error e)
  | .ok (caller, c) =>
    match resolveLine disk raw.callee.file raw.callee.name raw.callee.line c with
    | .error e => (c, .error e)
    | .ok (callee, c) =>
      (c, .ok (⟨moved raw.caller caller, moved raw.callee callee, raw.callLine⟩,
        caller.isSome && callee.isSome))

end AsyncSpread.Source
