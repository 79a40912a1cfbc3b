import AsyncSpread.Project.Walk
import AsyncSpread.Python.NameIndex
import AsyncSpread.Rewrite.Source

/-!
The names in all source files of a project.
-/

namespace AsyncSpread.Project

open Python

variable [Parser]

structure Index where
  /-- The absolute path of the root. -/
  root : Path
  files : List (Path × NameIndex)
  /-- The files that could not be indexed. -/
  failures : List Failure

namespace Index

def ofFile (disk : Disk) (c : Config) (file : SourceFile) : Except Fault NameIndex := do
  let source ← readSource disk file.path c
  return NameIndex.ofTree source file.module (← parseSource file.path.text source)

def build (disk : Disk) (root : Path) (c : Config) : Except Fault Index := do
  let root ← prepare disk root c
  let found := walk disk root c
  let indexed := found.files.map fun file => (file.path, ofFile disk c file)
  return ⟨root,
    indexed.filterMap fun (path, r) => match r with
      | .ok ix => some (path, ix)
      | .error _ => none,
    found.failures ++ indexed.filterMap fun (path, r) => match r with
      | .ok _ => none
      | .error e => some ⟨path, e⟩⟩

def atPath? (ix : Index) (path : Path) : Option NameIndex :=
  (ix.files.find? fun (p, _) => p.same path).map (·.2)

/-- The names of a file.  A path is followed from the working directory, then from the root, and is
at last taken as it is. -/
def file? (ix : Index) (disk : Disk) (file : Path) : Option NameIndex :=
  ((disk.canonical file).toOption.bind ix.atPath?)
    <|> (if file.isAbsolute then none
      else (disk.canonical (ix.root.join file)).toOption.bind ix.atPath?)
    <|> ix.atPath? file

def nameAt? (ix : Index) (disk : Disk) (file : Path) (line : Nat) : Option String :=
  (ix.file? disk file).bind fun f => f.nameAt? line

end Index

end AsyncSpread.Project
