import AsyncSpread.Calls.Adjacency
import AsyncSpread.Calls.Registry
import AsyncSpread.Plan

/-!
Call graphs: registered functions and the calls between them.

The calls stand in a list in the order of their coming.  What follows from the list is kept beside
it and grows with it: the set of the calls, and where the calls of each function stand, those that
it makes and those that are made of it.
-/

namespace AsyncSpread.Calls

/-- A call between two functions, by their numbers, with the name written at the call and its
line. -/
structure Call where
  caller : Nat
  callee : Nat
  name : String
  line : Nat
deriving DecidableEq, Repr

/-- Calls are compared by their functions, then by what is written, then by their lines. -/
instance : Ord Call := ⟨compareLex (compareLex (compareOn Call.caller) (compareOn Call.callee))
  (compareLex (compareOn Call.name) (compareOn Call.line))⟩

instance : Std.TransOrd Call :=
  inferInstanceAs (Std.TransCmp
    (compareLex (compareLex (compareOn Call.caller) (compareOn Call.callee))
    (compareLex (compareOn Call.name) (compareOn Call.line))))

instance : Std.LawfulEqOrd Call where
  eq_of_compare {a b} h := by
    have h' : compareLex (compareLex (compareOn Call.caller) (compareOn Call.callee))
        (compareLex (compareOn Call.name) (compareOn Call.line)) a b = .eq := h
    simp only [compareLex_eq_eq] at h'
    have h1 := Std.LawfulEqOrd.eq_of_compare h'.1.1
    have h2 := Std.LawfulEqOrd.eq_of_compare h'.1.2
    have h3 := Std.LawfulEqOrd.eq_of_compare h'.2.1
    have h4 := Std.LawfulEqOrd.eq_of_compare h'.2.2
    cases a; cases b; simp_all

def Call.isAnonymous (c : Call) : Bool := c.name == anonymousCall || c.name == anonymousSubscript

inductive Fault where
  | noName (name : String)
  | noNumber (id : Nat)
deriving DecidableEq, Repr

def Fault.message : Fault → String
  | .noName name => "Function not found in call graph: " ++ name
  | .noNumber id => "Function not found in call graph: #" ++ toString id

end AsyncSpread.Calls

namespace AsyncSpread

open Calls

/-- Functions and the calls between them, each in the order of their coming. -/
structure CallGraph where
  registry : Registry
  calls : List Call
  /-- The calls as a set. -/
  seen : SortedSet Call
  /-- Where the calls stand that a function makes. -/
  outgoing : Adjacency
  /-- Where the calls of a function stand. -/
  incoming : Adjacency
deriving DecidableEq

namespace CallGraph

def empty : CallGraph := ⟨∅, [], ∅, ∅, ∅⟩

instance : EmptyCollection CallGraph := ⟨empty⟩

instance : Inhabited CallGraph := ⟨empty⟩

def addFunction (g : CallGraph) (name : String) (file : Path) (line : Nat) : Nat × CallGraph :=
  let (id, r) := g.registry.register name file line
  (id, { g with registry := r })

def append (g : CallGraph) (c : Call) : CallGraph :=
  let place := g.calls.length
  { g with
    calls := g.calls ++ [c], seen := g.seen.insert c, outgoing := g.outgoing.push c.caller place,
    incoming := g.incoming.push c.callee place }

/-- Adds a call between registered functions, unless it is there, and tells whether it was new. -/
def addCall (g : CallGraph) (c : Call) : Except Calls.Fault (Bool × CallGraph) :=
  if (g.registry.get? c.caller).isNone then .error (.noNumber c.caller)
  else if (g.registry.get? c.callee).isNone then .error (.noNumber c.callee)
  else if g.seen.contains c then .ok (false, g)
  else .ok (true, g.append c)

def function? (g : CallGraph) (id : Nat) : Option Function := g.registry.get? id

def number (g : CallGraph) (name : String) : Except Calls.Fault Nat :=
  match g.registry.number? name with
  | some id => .ok id
  | none => .error (.noName name)

def name (g : CallGraph) (id : Nat) : Except Calls.Fault String :=
  match g.registry.get? id with
  | some f => .ok f.name
  | none => .error (.noNumber id)

def functionNamed? (g : CallGraph) (name : String) : Option Function :=
  (g.registry.number? name).bind g.function?

def callsAt (g : CallGraph) (places : List Nat) : List Call :=
  places.filterMap fun place => g.calls[place]?

def callsFrom (g : CallGraph) (id : Nat) : List Call := g.callsAt (g.outgoing.places id)

def callsTo (g : CallGraph) (id : Nat) : List Call := g.callsAt (g.incoming.places id)

def reindex (g : CallGraph) : CallGraph :=
  { g with
    registry := g.registry.renumber, seen := .ofList g.calls, outgoing :=
      .ofList Call.caller g.calls,
    incoming := .ofList Call.callee g.calls }

end CallGraph

end AsyncSpread
