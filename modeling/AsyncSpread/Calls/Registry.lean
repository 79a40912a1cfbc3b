import AsyncSpread.Disk.Path

/-!
The functions of a call graph.  A function has a number, which is its place, and a dotted name, by
which it is registered once.
-/

namespace AsyncSpread.Calls

structure Function where
  id : Nat
  name : String
  file : Path
  /-- The line of the definition. -/
  line : Nat
deriving DecidableEq, Repr

def Function.shortName (f : Function) : String := AsyncSpread.shortName f.name

/-- Functions in the order of their registration, and the numbers of names, the latest first. -/
structure Registry where
  functions : List Function
  numbers : List (String × Nat)
deriving DecidableEq, Repr

namespace Registry

def empty : Registry := ⟨[], []⟩

instance : EmptyCollection Registry := ⟨empty⟩

instance : Inhabited Registry := ⟨empty⟩

def size (r : Registry) : Nat := r.functions.length

def isEmpty (r : Registry) : Bool := r.functions.isEmpty

def get? (r : Registry) (id : Nat) : Option Function := r.functions[id]?

def number? (r : Registry) (name : String) : Option Nat :=
  (r.numbers.find? fun (n, _) => n == name).map (·.2)

/-- Registers a function and returns its number.  A name that is registered keeps its file and
line. -/
def register (r : Registry) (name : String) (file : Path) (line : Nat) : Nat × Registry :=
  match r.number? name with
  | some id => (id, r)
  | none =>
    let id := r.size
    (id, ⟨r.functions ++ [⟨id, name, file, line⟩], (name, id) :: r.numbers⟩)

/-- Numbers the names anew, by what the functions say; of functions with one name the last one
counts. -/
def renumber (r : Registry) : Registry :=
  { r with numbers := (r.functions.map fun f => (f.name, f.id)).reverse }

end Registry

end AsyncSpread.Calls
