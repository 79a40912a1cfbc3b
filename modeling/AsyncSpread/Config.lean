import AsyncSpread.Text.Dotted
import AsyncSpread.Text.Letter
import AsyncSpread.Text.Quoted

/-!
How a project is rewritten: the marker for asynchronous tests, what counts as a test, which files
take part, and whether they are written.
-/

namespace AsyncSpread

structure Config where
  /-- The module that a marked file imports. -/
  markerModule : String
  /-- The dotted path of the decorator that marks a test. -/
  markerDecorator : String
  /-- The beginning of the names of tests. -/
  testPrefix : String
  /-- The extensions of source files, with or without a dot. -/
  fileExtensions : List String
  /-- The directories that are left out. -/
  excludeDirs : List String
  /-- The largest file that is read, in bytes. -/
  maxFileSize : Nat
  parallel : Bool
  numThreads : Option Nat
  /-- Whether files are left as they are. -/
  dryRun : Bool
deriving DecidableEq, Repr

namespace Config

def standard : Config where
  markerModule := "pytest"
  markerDecorator := "pytest.mark.asyncio"
  testPrefix := "test"
  fileExtensions := [".py"]
  excludeDirs := ["__pycache__", ".git", ".venv", "venv", "env", ".tox", "dist", "build", ".eggs",
    "*.egg-info"]
  maxFileSize := 10 * 1024 * 1024
  parallel := false
  numThreads := none
  dryRun := false

instance : Inhabited Config := ⟨standard⟩

def markerPath (c : Config) : List String := dotted c.markerDecorator

inductive Fault where
  | noThreads
  | noFileSize
  | noExtensions
  | moduleNotIdentifier (module : String)
  | decoratorNotPath (decorator : String)
  | decoratorOutside (decorator module : String)
deriving DecidableEq, Repr

def Fault.message : Fault → String
  | .noThreads => "num_threads must be greater than 0"
  | .noFileSize => "max_file_size must be greater than 0"
  | .noExtensions => "file_extensions cannot be empty"
  | .moduleNotIdentifier m => "marker_module " ++ Text.quoted m ++ " is not a Python identifier"
  | .decoratorNotPath d =>
    "marker_decorator " ++ Text.quoted d ++ " must be a dotted attribute path"
  | .decoratorOutside d m =>
    "marker_decorator " ++ Text.quoted d ++ " must start with marker_module " ++ Text.quoted m

def isIdentifier (s : String) : Bool := Text.isIdentifier s.toList

def fault? (c : Config) : Option Fault :=
  if c.numThreads = some 0 then some .noThreads
  else if c.maxFileSize = 0 then some .noFileSize
  else if c.fileExtensions.isEmpty then some .noExtensions
  else if !isIdentifier c.markerModule then some (.moduleNotIdentifier c.markerModule)
  else if c.markerPath.length < 2 || !c.markerPath.all isIdentifier then
    some (.decoratorNotPath c.markerDecorator)
  else if c.markerPath.head? ≠ some c.markerModule then
    some (.decoratorOutside c.markerDecorator c.markerModule)
  else none

def validate (c : Config) : Except Fault Unit :=
  match c.fault? with
  | some f => .error f
  | none => .ok ()

def bareExtension (s : String) : List Char := s.toList.dropWhile (· = '.')

def takesExtension (c : Config) (extension : String) : Bool :=
  c.fileExtensions.any fun e => bareExtension extension == bareExtension e

/-- Whether an exclude pattern applies to a directory.  A pattern with stars applies wherever the
rest of it occurs; one without applies to its own name. -/
def excludes (pattern name : String) : Bool :=
  if pattern.toList.contains '*' then
    Text.occursIn (pattern.toList.filter (· ≠ '*')) name.toList
  else name == pattern

def excludesDir (c : Config) (name : String) : Bool := c.excludeDirs.any (excludes · name)

end Config

end AsyncSpread
