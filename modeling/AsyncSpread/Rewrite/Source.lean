import AsyncSpread.Fault
import AsyncSpread.Rewrite.Module

/-!
Rewriting one text under a plan that may cover a whole project.
-/

namespace AsyncSpread

open Python Rewrite

variable [Parser]

def parseSource (name : String) (source : List Char) : Except Fault Node :=
  match parse source with
  | .ok tree => .ok tree
  | .error why => .error (.notPython name why)

def rewriteParsed (t : Task) (tree : Node) : Except Fault Rewritten :=
  match rewriteTree t tree with
  | .ok r => .ok r
  | .error what => .error (.target what)

/-- Reads the text of a task and rewrites it.  Messages call the text by the module of the index. -/
def Rewrite.Task.rewrite (t : Task) : Except Fault Rewritten := do
  let tree ← parseSource t.index.module t.source
  rewriteParsed t tree

def Plan.names (p : Plan) : List String :=
  p.functions.toList ++ p.tests.toList ++ p.calls.toList.map CallKey.caller

/-- The module right below another that a name seems to lie in: the first component below the
module, if more components follow and the module does not define it. -/
def submoduleOf? (module : String) (defined : List String) (name : String) : Option String := do
  let rest ← within? module name
  let (head, _) ← Text.cutFirst? '.' rest.toList
  let top := below module (String.ofList head)
  if defined.contains top then none else some top

/-- The part of a plan that a module owns, judged by what the module defines itself. -/
def Plan.ownPart (p : Plan) (ix : NameIndex) : Plan :=
  if ix.module.isEmpty then p
  else p.ownedBy (ix.module :: p.names.filterMap (submoduleOf? ix.module ix.names)) ix.module

/-- What is to be done with a text as a module of a project.  Names that belong to other modules are
left to them. -/
def taskOf (source : List Char) (module : String) (plan : Plan) (config : Config) (tree : Node) :
    Task :=
  let ix := NameIndex.ofTree source module tree
  ⟨source, ix, plan.ownPart ix, config⟩

def asyncify (source : List Char) (module : String) (plan : Plan) (config : Config) :
    Except Fault Rewritten := do
  match config.validate with
  | .error why => .error (.config why)
  | .ok () =>
    let tree ← parseSource module source
    rewriteParsed (taskOf source module plan config tree) tree

end AsyncSpread
