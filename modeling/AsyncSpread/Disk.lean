import AsyncSpread.Disk.Path
import AsyncSpread.Text.Utf8

/-!
The files a run can see: a tree of directories, files and symbolic links, a working directory in it,
and what the system refuses.

Reading goes through links; a failure says why as an operating system would.
-/

namespace AsyncSpread

inductive Entry where
  | file (bytes : List UInt8)
  | link (target : Path)
  | dir (entries : List (String × Entry))

abbrev Directory := List (String × Entry)

def Entry.isDir : Entry → Bool
  | .dir _ => true
  | _ => false

namespace Disk

inductive Fault where
  | notFound
  | notDirectory
  | isDirectory
  | tooManyLinks
  | permissionDenied
  | readOnly
  | inputOutput
  | notText
deriving DecidableEq, Repr

def Fault.message : Fault → String
  | .notFound => "No such file or directory (os error 2)"
  | .notDirectory => "Not a directory (os error 20)"
  | .isDirectory => "Is a directory (os error 21)"
  | .tooManyLinks => "Too many levels of symbolic links (os error 40)"
  | .permissionDenied => "Permission denied (os error 13)"
  | .readOnly => "Read-only file system (os error 30)"
  | .inputOutput => "Input/output error (os error 5)"
  | .notText => "stream did not contain valid UTF-8"

/-- What is done with a place.  A walk asks for the kind of an entry that it comes upon in a
directory, and a size is asked for by path. -/
inductive Access where
  | list
  | kind
  | size
  | read
  | write
deriving DecidableEq, Repr

/-- What a system answers when a place is to be accessed. -/
class Guard where
  allow : Access → List String → Except Fault Unit

/-- Every access is allowed, unless a disk says otherwise. -/
instance : Guard := ⟨fun _ _ => .ok ()⟩

end Disk

/-- All files, the names of the working directory from the top, and what is allowed. -/
structure Disk where
  top : Directory
  cwd : List String
  [guard : Disk.Guard]

namespace Disk

def lookup (name : String) : Directory → Option Entry
  | [] => none
  | (n, e) :: rest => if n == name then some e else lookup name rest

/-- What lies at a row of names from a directory on, without going through links. -/
def entryBelow : Directory → List String → Option Entry
  | d, [] => some (.dir d)
  | d, name :: rest =>
    match lookup name d with
    | some (.dir d') => entryBelow d' rest
    | some e => if rest.isEmpty then some e else none
    | none => none

def entryAt (d : Disk) (names : List String) : Option Entry := entryBelow d.top names

/-- Follows the pieces of a path from the place `at_`.  A link hands the rest over to `onLink`.  A
dot or an empty piece asks for a directory. -/
def follow (d : Disk) (onLink : List String → List String → Except Fault (List String)) :
    List String → List String → Except Fault (List String)
  | at_, [] => .ok at_
  | at_, piece :: rest =>
    match d.entryAt at_ with
    | none => .error .notFound
    | some (.file _) => .error .notDirectory
    | some (.link _) => .error .notDirectory
    | some (.dir entries) =>
      if piece == "" || piece == "." then follow d onLink at_ rest
      else if piece == ".." then follow d onLink at_.dropLast rest
      else match lookup piece entries with
        | none => .error .notFound
        | some (.link target) =>
          onLink (if target.isAbsolute then [] else at_) (target.pieces ++ rest)
        | some _ => follow d onLink (at_ ++ [piece]) rest

def followThrough (d : Disk) : Nat → List String → List String → Except Fault (List String)
  | 0 => follow d fun _ _ => .error .tooManyLinks
  | n + 1 => follow d (followThrough d n)

/-- The place of the file or directory that a path leads to, as names from the top. -/
def resolve (d : Disk) (p : Path) : Except Fault (List String) :=
  if p.text.isEmpty then .error .notFound
  else d.followThrough 40 (if p.isAbsolute then [] else d.cwd) p.pieces

/-- The absolute path without links that leads to the same file. -/
def canonical (d : Disk) (p : Path) : Except Fault Path := (d.resolve p).map Path.ofNames

/-- The place that a path leads to, and what lies there, if the access is allowed. -/
def reach (d : Disk) (access : Access) (p : Path) : Except Fault (List String × Entry) := do
  let names ← d.resolve p
  d.guard.allow access names
  match d.entryAt names with
  | some e => .ok (names, e)
  | none => .error .notFound

def exists_ (d : Disk) (p : Path) : Bool := (d.reach .size p).isOk

def fileSize (d : Disk) (p : Path) : Except Fault Nat := do
  match ← d.reach .size p with
  | (_, .file bytes) => .ok bytes.length
  | (_, .dir _) => .error .isDirectory
  | (_, .link _) => .error .notFound

def readBytes (d : Disk) (p : Path) : Except Fault (List UInt8) := do
  match ← d.reach .read p with
  | (_, .file bytes) => .ok bytes
  | (_, .dir _) => .error .isDirectory
  | (_, .link _) => .error .notFound

def readText (d : Disk) (p : Path) : Except Fault (List Char) := do
  match Text.decodeUtf8? (← d.readBytes p) with
  | some cs => .ok cs
  | none => .error .notText

/-- Puts an entry under a name, in the place of what was there or at the end. -/
def put (name : String) (e : Entry) : Directory → Directory
  | [] => [(name, e)]
  | (n, old) :: rest => if n == name then (n, e) :: rest else (n, old) :: put name e rest

/-- Puts an entry at a row of names, making the directories on the way. -/
def putBelow (e : Entry) : List String → Directory → Directory
  | [], d => d
  | [name], d => put name e d
  | name :: rest, d =>
    let inner := match lookup name d with
      | some (.dir d') => d'
      | _ => []
    put name (.dir (putBelow e rest inner)) d

def putAt (d : Disk) (names : List String) (e : Entry) : Disk :=
  { d with top := putBelow e names d.top }

def removeBelow : List String → Directory → Directory
  | [], d => d
  | [name], d => d.filter fun (n, _) => n != name
  | name :: rest, d =>
    match lookup name d with
    | some (.dir d') => put name (.dir (removeBelow rest d')) d
    | _ => d

def removeAt (d : Disk) (names : List String) : Disk := { d with top := removeBelow names d.top }

/-- Writes the file that a path leads to.  What is refused is refused before anything is written. -/
def writeText (d : Disk) (p : Path) (text : List Char) : Except Fault Disk := do
  match ← d.reach .write p with
  | (_, .dir _) => .error .isDirectory
  | (names, _) => .ok (d.putAt names (.file (Text.encodeUtf8 text)))

end Disk

end AsyncSpread
