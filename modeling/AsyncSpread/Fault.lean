import AsyncSpread.Config
import AsyncSpread.Disk
import AsyncSpread.Python.Parser
import AsyncSpread.Rewrite.CallTarget

/-!
Why a source cannot be read or rewritten.
-/

namespace AsyncSpread

inductive Fault where
  /-- A file that cannot be used. -/
  | file (path : Path) (why : Disk.Fault)
  /-- A place that a walk cannot enter. -/
  | walk (path : Path) (why : Disk.Fault)
  /-- A file of more bytes than the limit. -/
  | tooLarge (path : Path) (limit size : Nat)
  /-- A text that is not Python; `name` is the file or module it was read as. -/
  | notPython (name : String) (why : Python.SyntaxFault)
  /-- A call that a plan could not name. -/
  | target (what : Rewrite.Unsupported)
  | config (why : Config.Fault)
  /-- A file that should hold a configuration, and holds something else. -/
  | notConfig (path : Path)
deriving DecidableEq, Repr

namespace Fault

def message : Fault → String
  | .file path why => "Failed to access file " ++ path.text ++ ": " ++ why.message
  | .walk path why => "IO error for operation on " ++ path.text ++ ": " ++ why.message
  | .tooLarge path limit size =>
    "File " ++ path.text ++ " exceeds maximum size limit of " ++ toString limit ++
      " bytes (actual: " ++ toString size ++ " bytes)"
  | .notPython name why =>
    "Syntax error in " ++ name ++ " at line " ++ toString why.line ++ ", column " ++
      toString why.column ++ ": " ++ why.message
  | .target what =>
    "Unsupported call target \x60" ++ what.kind.name ++ "\x60 at line " ++ toString what.line
      ++ ", column " ++ toString what.column
  | .config why => "Invalid configuration: " ++ why.message
  | .notConfig path => "Invalid configuration: " ++ path.text ++ ": not a configuration"

end Fault

end AsyncSpread
