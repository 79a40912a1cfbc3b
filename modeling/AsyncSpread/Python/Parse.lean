import AsyncSpread.Python.Repair

/-!
A parser: the grammar read over the tokens of a text, and a repair where it cannot be read.
-/

namespace AsyncSpread.Python

/-- The tree of a text whose statements and last comments are these. -/
def moduleNode (statements : List Node) (after : List Trivia) : Node :=
  let children := statements ++ after.map Trivia.node
  let start := match children with
    | [] => Pos.start
    | n :: _ => n.start
  .mk .module start (Node.stopOf start children) children

namespace Grammar

def parse (source : List Char) : Except Flaw Node :=
  let (ts, after) := tokensOf source
  let reading := readModule ts
  match reading.result with
  | some (ns, ⟨[], _, _⟩) => .ok (moduleNode ns after)
  | _ => .error (firstFlaw ts)

def tree (source : List Char) : Tree :=
  match parse source with
  | .ok root => ⟨root, false⟩
  | .error flaw => flaw.tree

instance : Parser := ⟨tree⟩

end Grammar

end AsyncSpread.Python
