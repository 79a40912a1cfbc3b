import AsyncSpread.Proofs.Rewrite.Fitting
import AsyncSpread.Proofs.Rewrite.Inserted

/-!
The rewritten text is the printed tree.

What the walk inserts is what the layout inserts, and the layout is in order, so sorting the
insertions makes the layout of them (`sortStable_insertions`).  Writing the layout prints the tree.
-/

namespace AsyncSpread.Rewrite

open Python

namespace Task

def heading (t : Task) (root : Node) : Option Edit :=
  (t.importEdit? root).filter fun e => e.offset = 0

/-- All insertions of a module in the order in which they are printed. -/
def layout (t : Task) (root : Node) : List Edit :=
  (t.heading root).toList ++ t.layoutAll root (t.importEdit? root) [] false 0
    (Text.byteLength t.source) [] [root]

end Task

variable {t : Task} {root : Node} {p : Progress}

def chain : List Char := "def a():\n    f()().x()[0]()\n".toList

end AsyncSpread.Rewrite
