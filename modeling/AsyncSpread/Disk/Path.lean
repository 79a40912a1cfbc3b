import AsyncSpread.Text.Dotted

/-!
Paths as texts.  A path is kept as it was written; what it means is its row of components, in which
repeated slashes and dots in the middle do not count.
-/

namespace AsyncSpread

structure Path where
  text : String
deriving DecidableEq, Repr, Inhabited

namespace Path

inductive Component where
  | root
  /-- A dot at the very beginning. -/
  | here
  | up
  | name (s : String)
deriving DecidableEq, Repr

def Component.name? : Component → Option String
  | .name s => some s
  | _ => none

def isAbsolute (p : Path) : Bool := p.text.toList.head? == some '/'

def pieces (p : Path) : List String := (Text.piecesBetween '/' p.text.toList).map String.ofList

def component? : String → Option Component
  | "" => none
  | "." => none
  | ".." => some .up
  | s => some (.name s)

def components (p : Path) : List Component :=
  let rest := p.pieces.filterMap component?
  if p.isAbsolute then .root :: rest
  else if p.pieces.head? == some "." then .here :: rest
  else rest

def Component.text : Component → String
  | .root => "/"
  | .here => "."
  | .up => ".."
  | .name s => s

def hasComponent (p : Path) (text : String) : Bool := p.components.any fun c => c.text == text

def same (p q : Path) : Bool := p.components == q.components

def join (p q : Path) : Path :=
  if q.isAbsolute then q
  else if p.text.isEmpty || p.text.toList.getLast? == some '/' then ⟨p.text ++ q.text⟩
  else ⟨p.text ++ "/" ++ q.text⟩

def fileName? (p : Path) : Option String := p.components.getLast?.bind Component.name?

/-- A file name cut before its last dot.  A dot at the beginning cuts nothing. -/
def cutName (name : String) : String × Option String :=
  match Text.cutLast? '.' name.toList with
  | some (c :: cs, ext) => (String.ofList (c :: cs), some (String.ofList ext))
  | _ => (name, none)

def stem? (p : Path) : Option String := p.fileName?.map fun n => (cutName n).1

def extension? (p : Path) : Option String := p.fileName?.bind fun n => (cutName n).2

/-- A text without the slashes and dots that may follow its last component, given and returned
backwards. -/
def withoutTail : List Char → List Char
  | '/' :: rest => withoutTail rest
  | ['.'] => ['.']
  | '.' :: '/' :: rest => withoutTail ('/' :: rest)
  | cs => cs

/-- Puts an extension in the place of the one that the file name has, or behind a file name without
one.  Everything in front of the file name stays as it is written. -/
def putExtension (p : Path) (extension : String) : Path :=
  match p.fileName? with
  | none => p
  | some name =>
    let whole := (withoutTail p.text.toList.reverse).reverse
    let front := whole.take (whole.length - name.toList.length)
    let stem := String.ofList front ++ (cutName name).1
    ⟨if extension.isEmpty then stem else stem ++ "." ++ extension⟩

/-- A path with another extension.  The length of the old extension is taken off the end first; if
that leaves no file name, there is nothing to extend. -/
def withExtension (p : Path) (extension : String) : Path :=
  let cs := p.text.toList
  let old := (p.extension?.map fun e => e.toList.length).getD 0
  putExtension ⟨String.ofList (cs.take (cs.length - old))⟩ extension

/-- The components of a path behind those of another, if it begins with them. -/
def behind? (root p : Path) : Option (List Component) :=
  Text.after? root.components p.components

def below (p : Path) (names : List String) : Path := names.foldl (fun q n => q.join ⟨n⟩) p

def ofNames (names : List String) : Path := ⟨"/" ++ "/".intercalate names⟩

end Path

/-- The dotted module name of a file below a root directory: its directories and its stem.  The file
`__init__` stands for its directory, and directly in the root for the root. -/
def moduleName? (root file : Path) : Option String := do
  let parts := (← Path.behind? root file).filterMap Path.Component.name?
  let last ← parts.getLast?
  let stem ← Path.stem? ⟨last⟩
  let names := if stem == "__init__" then parts.dropLast else parts.dropLast ++ [stem]
  if names.isEmpty then root.fileName? else some (".".intercalate names)

end AsyncSpread
