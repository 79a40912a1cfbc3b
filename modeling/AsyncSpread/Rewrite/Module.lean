import AsyncSpread.Config
import AsyncSpread.Plan
import AsyncSpread.Rewrite.CallTarget
import AsyncSpread.Rewrite.Edit
import AsyncSpread.Text.Line

/-!
Rewriting one module.

One walk over the tree, in the order of the text, collects insertions: `async` before planned
functions, `await` before planned calls, the marker above planned tests.  At the end the import of
the marker is added where a test needs it.  Calls are decided on the way down, by the function whose
text holds them; functions on the way up, so that of several definitions of one name the first that
is left is the one that is converted.
-/

namespace AsyncSpread.Rewrite

open Python

structure Task where
  source : List Char
  index : NameIndex
  plan : Plan
  config : Config

namespace Task

def newline (t : Task) : List Char := Text.lineEnding t.source

end Task

structure Site where
  depth : Nat
  /-- The name of the function around it, if it is in one that has a name. -/
  caller : Option String
  /-- Whether a class or function is around it. -/
  nested : Bool
  /-- Whether it is what an `await` awaits, parentheses aside. -/
  awaited : Bool
  /-- Whether an attribute, a subscript or a call builds on it. -/
  builtOn : Bool
  /-- The decorators above it, if it is a decorated definition. -/
  decorators : List Node

namespace Site

def top : Site := ⟨0, none, false, false, false, []⟩

/-- The site of a child.  `first` says whether it is the first child, which is where a node has the
expression that it builds on. -/
def child (s : Site) (parent : Kind) (decorators : List Node) (first : Bool) : Site where
  depth := s.depth + 1
  caller := s.caller
  nested := s.nested || parent.scope?.isSome
  awaited := parent = .await || (parent = .parenthesizedExpression && s.awaited)
  builtOn := first && (parent = .attribute || parent = .subscript || parent = .call)
  decorators := decorators

end Site

structure Progress where
  /-- The planned functions that have not been found yet. -/
  pending : SortedSet String
  /-- Whether the module of the marker has been imported outside classes and functions. -/
  imported : Bool
  edits : List Edit
  madeAsync : Nat
  alreadyAsync : Nat
  awaited : Nat
  marked : Nat

namespace Progress

def start (plan : Plan) : Progress := ⟨plan.functions, false, [], 0, 0, 0, 0⟩

def edit (p : Progress) (e : Edit) : Progress := { p with edits := p.edits ++ [e] }

end Progress

mutual

/-- The names of a plain dotted expression, `a` or `a.b.c`. -/
def dottedPath? (source : List Char) : Node → Option (List String)
  | .mk kind start stop children =>
    let n : Node := .mk kind start stop children
    match kind with
    | .identifier => some [String.ofList (n.text source)]
    | .attribute => do
      let path ← dottedPathOfFirst? source children
      let last ← n.last?
      some (path ++ [String.ofList (last.text source)])
    | _ => none

def dottedPathOfFirst? (source : List Char) : List Node → Option (List String)
  | [] => none
  | n :: _ => dottedPath? source n

end

def isMarker (t : Task) (decorator : Node) : Bool :=
  match decorator.namedChildren.head? with
  | none => false
  | some expr =>
    let target := if expr.kind = .call then expr.head? else some expr
    (target.bind (dottedPath? t.source)) == some t.config.markerPath

/-- The line with the marker, above the first decorator or else above the definition, and indented
like it. -/
def markerEdit (t : Task) (s : Site) (definition : Node) : Edit :=
  let offset := match s.decorators with
    | d :: _ => d.start.byte
    | [] => definition.start.byte
  ⟨offset, .decorator, s.depth,
    '@' :: t.config.markerDecorator.toList ++ t.newline ++ Text.lineIndent t.source offset⟩

def isAsync (definition : Node) : Bool :=
  (definition.children.head?.map Node.kind) == some (.keyword .asyncWord)

/-- Leaves a function: if it is planned under its name, it becomes asynchronous, and marked if it is
a test.  A name is used up by its first definition. -/
def leaveFunction (t : Task) (s : Site) (definition : Node) (name : Option String) (p : Progress) :
    Progress :=
  match name with
  | none => p
  | some name =>
    if !p.pending.contains name then p else
    let p := { p with pending := p.pending.erase name }
    let p :=
      if isAsync definition then { p with alreadyAsync := p.alreadyAsync + 1 }
      else { p.edit ⟨definition.start.byte, .async, s.depth, "async ".toList⟩ with
        madeAsync := p.madeAsync + 1 }
    if t.plan.hasTest name && !s.decorators.any (isMarker t) then
      { p.edit (markerEdit t s definition) with marked := p.marked + 1 }
    else p

def awaitEdits (s : Site) (call : Node) : List Edit :=
  if s.builtOn then
    [⟨call.start.byte, .await, s.depth, "(await ".toList⟩, ⟨call.stop.byte, .close, s.depth, [')']⟩]
  else [⟨call.start.byte, .await, s.depth, "await ".toList⟩]

/-- Meets a call: it is awaited if it is planned, made by a named function, and not awaited yet. -/
def meetCall (t : Task) (s : Site) (call : Node) (p : Progress) : Except Unsupported Progress :=
  match s.caller with
  | none => .ok p
  | some caller =>
    if s.awaited then .ok p
    else match literalOf t.source call with
      | .error e => .error e
      | .ok literal =>
        if t.plan.hasCall caller literal then
          .ok { p with edits := p.edits ++ awaitEdits s call, awaited := p.awaited + 1 }
        else .ok p

/-- Whether an imported name binds a module: the module itself or something in it, or anything under
its name. -/
def binds (source : List Char) (module : String) (name : Node) : Bool :=
  match name.kind with
  | .aliasedImport => (name.last?.map (Node.text source)) == some module.toList
  | .dottedName =>
    let path := name.text source
    path == module.toList || (Text.after? module.toList path).any fun rest => rest.head? == some '.'
  | _ => false

/-- Meets an import: outside classes and functions it may bind the module of the marker. -/
def meetImport (t : Task) (s : Site) (statement : Node) (p : Progress) : Progress :=
  if t.plan.hasTests && !s.nested
      && statement.children.any (binds t.source t.config.markerModule) then
    { p with imported := true }
  else p

mutual

def visit (t : Task) (s : Site) : Node → Progress → Except Unsupported Progress
  | .mk kind start stop children, p =>
    let n : Node := .mk kind start stop children
    let decorators :=
      if kind = .decoratedDefinition then children.filter fun c => c.kind = .decorator else []
    match kind with
    | .functionDefinition =>
      let name := t.index.nameAt? n.startLine
      match visitAll t { s with caller := name } kind decorators true children p with
      | .error e => .error e
      | .ok p => .ok (leaveFunction t s n name p)
    | .call =>
      match meetCall t s n p with
      | .error e => .error e
      | .ok p => visitAll t s kind decorators true children p
    | .importStatement => visitAll t s kind decorators true children (meetImport t s n p)
    | _ => visitAll t s kind decorators true children p

def visitAll (t : Task) (s : Site) (parent : Kind) (decorators : List Node) (first : Bool) :
    List Node → Progress → Except Unsupported Progress
  | [], p => .ok p
  | n :: ns, p =>
    match visit t (s.child parent decorators first) n p with
    | .error e => .error e
    | .ok p => visitAll t s parent decorators false ns p

end

def isCompound (n : Node) : Bool :=
  match n.kind with
  | .functionDefinition | .classDefinition | .decoratedDefinition | .ifStatement | .forStatement
  | .whileStatement | .tryStatement | .withStatement | .matchStatement => true
  | _ => false

/-- The insertion of a line behind the line that holds an offset.  A last line that is not ended is
ended first. -/
def lineAfter (t : Task) (offset : Nat) (line : List Char) : Edit :=
  let source := t.source
  let at_ := Text.nextLineStart source offset
  let ends := source.isEmpty || source.getLast? = some '\n'
  ⟨at_, .importLine, 0,
    if at_ = Text.byteLength source && !ends then t.newline ++ line else line⟩

/-- The import of the marker's module: behind the simple statements that the module begins with, or
else in front of its first statement. -/
def importEdit (t : Task) (root : Node) : Edit :=
  let line := "import ".toList ++ t.config.markerModule.toList ++ t.newline
  let statements := root.namedChildren.filter fun n => n.kind ≠ .comment
  match (statements.takeWhile fun n => !isCompound n).getLast?, statements.head? with
  | some last, _ => lineAfter t last.stop.byte line
  | none, some first => ⟨Text.lineStart t.source first.start.byte, .importLine, 0, line⟩
  | none, none => lineAfter t (Text.byteLength t.source) line

structure Rewritten where
  source : List Char
  madeAsync : Nat
  alreadyAsync : Nat
  awaited : Nat
  marked : Nat
  importAdded : Bool
  /-- The planned functions that the module does not define. -/
  unconverted : SortedSet String
deriving DecidableEq

namespace Rewritten

def isChanged (r : Rewritten) : Bool :=
  0 < r.madeAsync || 0 < r.awaited || 0 < r.marked || r.importAdded

end Rewritten

/-- Walks over a whole module. -/
def gather (t : Task) (root : Node) : Except Unsupported Progress :=
  visit t .top root (.start t.plan)

namespace Progress

def needsImport (t : Task) (p : Progress) : Bool := t.plan.hasTests && !p.imported

def insertions (t : Task) (root : Node) (p : Progress) : List Edit :=
  if p.needsImport t then p.edits ++ [importEdit t root] else p.edits

end Progress

def rewriteTree (t : Task) (root : Node) : Except Unsupported Rewritten :=
  match gather t root with
  | .error e => .error e
  | .ok p =>
    .ok ⟨Edit.apply t.source (p.insertions t root), p.madeAsync, p.alreadyAsync,
      p.awaited, p.marked, p.needsImport t, p.pending⟩

end AsyncSpread.Rewrite
