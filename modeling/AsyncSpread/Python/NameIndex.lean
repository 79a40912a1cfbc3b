import AsyncSpread.Python.Tree
import AsyncSpread.Sorting
import AsyncSpread.Text.Dotted

/-!
The classes and functions of a file, with their dotted names and the lines they cover.

A scope runs from the line of its `class`, `def` or `async` to the last line of its body.  Lines of
decorators lie outside it.
-/

namespace AsyncSpread.Python

def Node.text (source : List Char) (n : Node) : List Char :=
  Text.slice n.start.byte n.stop.byte source

def Node.definedName? (n : Node) : Option Node := n.children.find? fun c => c.kind = .identifier

inductive ScopeKind where
  | classBody
  | functionBody
deriving DecidableEq, Repr

def ScopeKind.name : ScopeKind → String
  | .classBody => "Class"
  | .functionBody => "Function"

def Kind.scope? : Kind → Option ScopeKind
  | .classDefinition => some .classBody
  | .functionDefinition => some .functionBody
  | _ => none

structure Scope where
  name : String
  kind : ScopeKind
  startLine : Nat
  endLine : Nat
deriving DecidableEq, Repr

def Scope.covers (s : Scope) (line : Nat) : Bool := s.startLine ≤ line && line ≤ s.endLine

mutual

/-- The scopes of a node in the order of the text, an outer one before those inside it.  `outer` is
the name of what encloses the node. -/
def scopesOf (source : List Char) (outer : List String) : Node → List Scope
  | .mk kind start stop children =>
    let n : Node := .mk kind start stop children
    match kind.scope?, n.definedName? with
    | some k, some name =>
      let names := outer ++ [String.ofList (name.text source)]
      ⟨".".intercalate names, k, n.startLine, n.endLine⟩ :: scopesOfAll source names children
    | _, _ => scopesOfAll source outer children

def scopesOfAll (source : List Char) (outer : List String) : List Node → List Scope
  | [] => []
  | n :: ns => scopesOf source outer n ++ scopesOfAll source outer ns

end

structure NameIndex where
  module : String
  scopes : List Scope
deriving DecidableEq, Repr

namespace NameIndex

/-- Indexes a tree.  The scopes are listed by their first line. -/
def ofTree (source : List Char) (module : String) (tree : Node) : NameIndex :=
  let outer := if module.isEmpty then [] else [module]
  ⟨module, sortStable (fun s t => s.startLine < t.startLine) (scopesOf source outer tree)⟩

/-- The name of the innermost scope that covers a line: an inner scope begins later than what it
lies in. -/
def nameAt? (ix : NameIndex) (line : Nat) : Option String :=
  ((ix.scopes.takeWhile fun s => s.startLine ≤ line).filter (·.covers line)).getLast?.map Scope.name

def names (ix : NameIndex) : List String := ix.scopes.map Scope.name

end NameIndex

end AsyncSpread.Python
