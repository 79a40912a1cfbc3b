import AsyncSpread.Fault
import AsyncSpread.Sorting

/-!
The source files of a project: what lies below its root.

Directories are walked in depth, and what lies in one in the order of the names.  Links are passed
over, except that the root itself may be one; directories that the configuration leaves out are not
entered, except the root.  A directory that cannot be listed, or an entry whose kind is not told, is
a failure of its own, and the walk goes on behind it.
-/

namespace AsyncSpread.Project

structure SourceFile where
  path : Path
  module : String
deriving DecidableEq, Repr

structure Failure where
  path : Path
  why : Fault
deriving DecidableEq, Repr

def Failure.message (f : Failure) : String := f.why.message

/-! ## Walking -/

/-- What a walk meets: a file, or a place where it fails.  The names lead there from the root. -/
structure Met where
  names : List String
  why? : Option Disk.Fault
deriving DecidableEq, Repr

def Met.under (name : String) (m : Met) : Met := ⟨name :: m.names, m.why?⟩

/-- The order of the parts of a directory.  An entry that does not tell its kind has no name to be
ordered by, and comes first. -/
def comesBefore : Option String → Option String → Bool
  | _, none => false
  | none, some _ => true
  | some a, some b => a < b

def inOrder {α : Type} (parts : List (Option String × List α)) : List α :=
  (sortStable (fun a b => comesBefore a.1 b.1) parts).flatMap (·.2)

/-- What is met in a directory at a place, if it can be listed. -/
def listed (d : Disk) (place : List String) (parts : List (Option String × List Met)) : List Met :=
  match d.guard.allow .list place with
  | .ok () => inOrder parts
  | .error why => [⟨[], some why⟩]

/-- What is met below the name of an entry, if the kind of the entry is told. -/
def told (d : Disk) (place : List String) (name : String)
    (met : List Met) : Option String × List Met :=
  match d.guard.allow .kind (place ++ [name]) with
  | .ok () => (some name, met.map (Met.under name))
  | .error why => (none, [⟨[name], some why⟩])

mutual

/-- What is met from an entry on that lies at a place under the given name. -/
def metAt (d : Disk) (c : Config) (place : List String) (name : String) : Entry → List Met
  | .file _ => [⟨[], none⟩]
  | .link _ => []
  | .dir entries => if c.excludesDir name then [] else listed d place (metIn d c place entries)

def metIn (d : Disk) (c : Config) (place : List String) :
    List (String × Entry) → List (Option String × List Met)
  | [] => []
  | (name, e) :: rest =>
    told d place name (metAt d c (place ++ [name]) name e) :: metIn d c place rest

end

def met (disk : Disk) (root : Path) (c : Config) : List Met :=
  match disk.reach .size root with
  | .ok (place, .dir entries) => listed disk place (metIn disk c place entries)
  | .ok _ => []
  | .error why => [⟨[], some why⟩]

/-- A file that takes part: it has one of the extensions, and its module has a name. -/
def SourceFile.of? (c : Config) (root path : Path) : Option SourceFile :=
  if path.extension?.any c.takesExtension then (moduleName? root path).map fun m => ⟨path, m⟩
  else none

def Met.file? (c : Config) (root : Path) (m : Met) : Option SourceFile :=
  match m.why? with
  | none => SourceFile.of? c root (root.below m.names)
  | some _ => none

def Met.failure? (root : Path) (m : Met) : Option Failure :=
  m.why?.map fun why => ⟨root.below m.names, .walk (root.below m.names) why⟩

structure Walk where
  files : List SourceFile
  failures : List Failure

def walk (disk : Disk) (root : Path) (c : Config) : Walk :=
  let found := met disk root c
  ⟨found.filterMap (Met.file? c root), found.filterMap (Met.failure? root)⟩

/-! ## Reading -/

def readSource (disk : Disk) (path : Path) (c : Config) : Except Fault (List Char) :=
  match disk.fileSize path with
  | .error why => .error (.file path why)
  | .ok size =>
    if c.maxFileSize < size then .error (.tooLarge path c.maxFileSize size)
    else match disk.readText path with
      | .error why => .error (.file path why)
      | .ok text => .ok text

/-- A configuration that can be used, and the absolute path of a root. -/
def prepare (disk : Disk) (root : Path) (c : Config) : Except Fault Path :=
  match c.validate with
  | .error why => .error (.config why)
  | .ok () =>
    match disk.canonical root with
    | .error why => .error (.file root why)
    | .ok absolute => .ok absolute

end AsyncSpread.Project
