import AsyncSpread.Disk
import AsyncSpread.Text.Line

/-!
Source files as numbered lines, each file read once.  A file is known by the absolute path that
leads to it, so that it may be asked for by different paths.
-/

namespace AsyncSpread.Source

structure Unreadable where
  path : Path
  why : Disk.Fault
deriving DecidableEq, Repr

def Unreadable.message (u : Unreadable) : String :=
  "Failed to read source " ++ u.path.text ++ ": " ++ u.why.message

/-- The lines of a text under their numbers: the first line has the number 1, and an empty line
stands in front. -/
def numbered (text : List Char) : List (List Char) := [] :: Text.lines text

structure Cache where
  entries : List (Path × List (List Char))

namespace Cache

def empty : Cache := ⟨[]⟩

instance : EmptyCollection Cache := ⟨empty⟩

instance : Inhabited Cache := ⟨empty⟩

def size (c : Cache) : Nat := c.entries.length

def isEmpty (c : Cache) : Bool := c.entries.isEmpty

/-- What a file is known by; a path that leads nowhere is known by itself. -/
def key (disk : Disk) (path : Path) : Path := (disk.canonical path).toOption.getD path

def get? (c : Cache) (key : Path) : Option (List (List Char)) :=
  (c.entries.find? fun (k, _) => k.same key).map (·.2)

def contains (disk : Disk) (path : Path) (c : Cache) : Bool := (c.get? (key disk path)).isSome

def forget (disk : Disk) (path : Path) (c : Cache) : Cache :=
  ⟨c.entries.filter fun (k, _) => !k.same (key disk path)⟩

/-- The lines of a file.  A file that cannot be read is not kept, so that it is tried again. -/
def lines (disk : Disk) (path : Path) (c : Cache) : Except Unreadable (List (List Char) × Cache) :=
  match c.get? (key disk path) with
  | some ls => .ok (ls, c)
  | none =>
    match disk.readBytes path with
    | .error why => .error ⟨path, why⟩
    | .ok bytes =>
      let ls := numbered (Text.decodeUtf8Lossy bytes)
      .ok (ls, ⟨(key disk path, ls) :: c.entries⟩)

end Cache

end AsyncSpread.Source
