import AsyncSpread.Proofs.Rewrite.Awaited

/-!
The rewritten text as its tree prints it.

Each node is printed as it stands in the source, with its own words in front of it and behind it,
and the gaps between the children of a node are copied.  Nothing here is sorted, and no offset is
looked at but for the line that imports the marker.
-/

namespace AsyncSpread.Rewrite

open Python

namespace Task

/-- Whether an import outside functions and classes binds the module of the marker. -/
def bindsMarker (t : Task) (pl : Place) : Bool :=
  t.plan.hasTests && pl.node.kind = .importStatement &&
    !(pl.around.any fun n => n.kind.scope?.isSome) &&
    pl.node.children.any (binds t.source t.config.markerModule)

def importEdit? (t : Task) (root : Node) : Option Edit :=
  if t.plan.hasTests && !(places root).any t.bindsMarker then some (importEdit t root) else none

end Task

/-- Whether a function ends before another one.  Of two that end together the inner one does. -/
def endsBefore (d e : Node) : Bool :=
  d.stop.byte < e.stop.byte || (d.stop.byte = e.stop.byte && e.start.byte < d.start.byte)

namespace Task

/-- Whether the function at a place is converted: its name is planned, and none of that name ends
before it. -/
def converts (t : Task) (root : Node) (pl : Place) : Bool :=
  (pl.defined? t).any fun name => t.plan.hasFunction name && root.all.all fun e =>
    e.kind ≠ .functionDefinition || t.index.nameAt? e.startLine ≠ some name || !endsBefore e pl.node

def marks (t : Task) (root : Node) (pl : Place) : Bool :=
  t.converts root pl && (pl.defined? t).any t.plan.hasTest && !pl.decorators.any (isMarker t)

def markerLine (t : Task) (offset : Nat) : List Char :=
  '@' :: t.config.markerDecorator.toList ++ t.newline ++ Text.lineIndent t.source offset

/-- What is printed right in front of a node: above a function without decorators the marker, then
`async` or `await`. -/
def front (t : Task) (root : Node) (pl : Place) : List Char :=
  (if t.marks root pl && pl.decorators.isEmpty then t.markerLine pl.node.start.byte else []) ++
    (if t.converts root pl && !isAsync pl.node then "async ".toList else []) ++
      if t.wraps pl then (if pl.builtOn then "(await " else "await ").toList else []

def behind (t : Task) (pl : Place) : List Char := if t.wraps pl && pl.builtOn then [')'] else []

/-- What is printed in front of the first decorator among the children of a node: the markers of the
functions among them. -/
def above (t : Task) (root n : Node) (around : List Node) : List Char :=
  match Place.decoratorsOf n with
  | [] => []
  | d :: _ =>
    n.children.flatMap fun c => if t.marks root ⟨c, n :: around,
      false⟩ then t.markerLine d.start.byte else []

/-- Copies the source from an offset to another.  A line that is to be inserted on the way is
printed where it belongs. -/
def copy (t : Task) (line? : Option Edit) (a b : Nat) : List Char :=
  match line? with
  | none => Text.slice a b t.source
  | some e =>
    if a < e.offset ∧ e.offset ≤ b then Text.slice a e.offset t.source ++ e.text ++
      Text.slice e.offset b t.source
    else Text.slice a b t.source

mutual

def printNode (t : Task) (root : Node) (line? : Option Edit) (around : List Node) (first : Bool) :
    Node → List Char
  | .mk k p q ns =>
    t.front root ⟨.mk k p q ns, around, first⟩ ++
      t.printAll root line? (.mk k p q ns :: around) true p.byte q.byte
        (t.above root (.mk k p q ns) around) ns ++ t.behind ⟨.mk k p q ns, around, first⟩

def printAll (t : Task) (root : Node) (line? : Option Edit) (around : List Node) (first : Bool)
    (a b : Nat) (lines : List Char) : List Node → List Char
  | [] => t.copy line? a b
  | n :: ns =>
    t.copy line? a n.start.byte ++ (if n.kind = .decorator then lines else []) ++
      t.printNode root line? around first n ++
      t.printAll root line? around false n.stop.byte b
        (if n.kind = .decorator then [] else lines) ns

end

end Task

end AsyncSpread.Rewrite
