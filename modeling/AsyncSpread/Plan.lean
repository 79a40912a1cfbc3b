import AsyncSpread.SortedSet
import AsyncSpread.Text.Dotted

/-!
Plans: which functions become asynchronous, which calls are awaited, and which of the functions are
tests.

A call is planned by the function that makes it and by what is written at the call, since a rewriter
sees nothing else.  Names are dotted and every name lies in a module; a plan can be restricted to a
module or split over several.
-/

namespace AsyncSpread

def anonymousCall : String := "anonymous:call"

/-- What stands for the name at a call whose target is a subscript. -/
def anonymousSubscript : String := "anonymous:subscript"

/-- A call as a plan names it: the calling function, and the name that is written at the call. -/
structure CallKey where
  caller : String
  callee : String
deriving DecidableEq, Repr

namespace CallKey

/-- Call keys are listed by caller, then by callee. -/
instance : Ord CallKey := ⟨compareLex (compareOn CallKey.caller) (compareOn CallKey.callee)⟩

instance : Std.TransOrd CallKey :=
  inferInstanceAs (Std.TransCmp (compareLex (compareOn CallKey.caller) (compareOn CallKey.callee)))

instance : Std.LawfulEqOrd CallKey where
  eq_of_compare {a b} h := by
    have h' : compareLex (compareOn CallKey.caller) (compareOn CallKey.callee) a b = .eq := h
    rw [compareLex_eq_eq] at h'
    have h1 := Std.LawfulEqOrd.eq_of_compare h'.1
    have h2 := Std.LawfulEqOrd.eq_of_compare h'.2
    cases a; cases b; simp_all

end CallKey

/-- What to rewrite.  The tests are meant to be among the functions, and every operation that builds
a plan keeps it so. -/
structure Plan where
  functions : SortedSet String
  calls : SortedSet CallKey
  tests : SortedSet String
deriving DecidableEq

namespace Plan

def empty : Plan := ⟨∅, ∅, ∅⟩

instance : EmptyCollection Plan := ⟨empty⟩

instance : Inhabited Plan := ⟨empty⟩

@[ext] theorem ext {p q : Plan} (hf : p.functions = q.functions) (hc : p.calls = q.calls)
    (ht : p.tests = q.tests) : p = q := by
  cases p; cases q; simp_all

def addFunction (p : Plan) (name : String) : Plan := { p with functions := p.functions.insert name }

def addTest (p : Plan) (name : String) : Plan :=
  { p with functions := p.functions.insert name, tests := p.tests.insert name }

def addCall (p : Plan) (caller callee : String) : Plan :=
  { p with calls := p.calls.insert ⟨caller, callee⟩ }

def hasFunction (p : Plan) (name : String) : Bool := p.functions.contains name

def hasCall (p : Plan) (caller callee : String) : Bool := p.calls.contains ⟨caller, callee⟩

def hasTest (p : Plan) (name : String) : Bool := p.tests.contains name

def hasTests (p : Plan) : Bool := !p.tests.isEmpty

def isEmpty (p : Plan) : Bool := p.functions.isEmpty && p.calls.isEmpty

def merge (p q : Plan) : Plan :=
  ⟨p.functions.union q.functions, p.calls.union q.calls, p.tests.union q.tests⟩

/-- The part of a plan whose names pass a test; a call goes by its caller. -/
def restrict (p : Plan) (keep : String → Bool) : Plan :=
  ⟨p.functions.filter keep, p.calls.filter fun k => keep k.caller, p.tests.filter keep⟩

end Plan

/-- Whether a name lies in a module.  Everything lies in the module without a name. -/
def inModule (module name : String) : Bool := module.isEmpty || (within? module name).isSome

/-- The first of a name's ancestors that is listed, from the longest on. -/
def ownerAmong (modules : List String) : Nat → List Char → Option String
  | 0, _ => none
  | n + 1, name =>
    match Text.cutLast? '.' name with
    | none => none
    | some (outer, _) =>
      if modules.contains (String.ofList outer) then some (String.ofList outer)
      else ownerAmong modules n outer

/-- The longest listed module that a name lies in.  Each step shortens the name, so its length
bounds the steps. -/
def owner? (modules : List String) (name : String) : Option String :=
  ownerAmong modules (name.toList.length + 1) name.toList

namespace Plan

def inModule (p : Plan) (module : String) : Plan := p.restrict (AsyncSpread.inModule module)

/-- The part of a plan that a module owns among others.  A test is a function of the module, too. -/
def ownedBy (p : Plan) (modules : List String) (module : String) : Plan :=
  let own : Plan := p.restrict fun name => owner? modules name == some module
  { own with functions := own.functions.union own.tests }

/-- A plan split over modules: each module with what it owns, in the order of their names.  A module
that owns nothing has no part. -/
def split (p : Plan) (modules : List String) : List (String × Plan) :=
  ((SortedSet.ofList modules).toList.map fun m => (m, p.ownedBy modules m)).filter
    fun (_, part) => part != ∅

end Plan

end AsyncSpread
