import AsyncSpread.Python.Tree

/-!
Reading a text into its tree.

What parses is a parameter.  A parser makes a tree of any text; in the tree of a text that is not
Python some nodes stand for what is wrong with it, and `parse` reports the first of them.
-/

namespace AsyncSpread.Python

structure Tree where
  root : Node
  /-- Whether anything in the text is wrong.  That need not show in a node. -/
  hasError : Bool

class Parser where
  tree : List Char → Tree

namespace Node

def isFault (n : Node) : Bool :=
  match n.kind with
  | .error | .missing _ => true
  | _ => false

mutual

def firstFault? : Node → Option Node
  | .mk kind start stop children =>
    if (mk kind start stop children).isFault then some (.mk kind start stop children)
    else firstFaultAmong? children

def firstFaultAmong? : List Node → Option Node
  | [] => none
  | n :: ns =>
    match firstFault? n with
    | some fault => some fault
    | none => firstFaultAmong? ns

end

end Node

/-- What is wrong with a text, and where: the line from 1 on, the column in bytes from 0 on.  Both
are 0 if it does not show in the tree. -/
structure SyntaxFault where
  line : Nat
  column : Nat
  message : String
deriving DecidableEq, Repr

def SyntaxFault.of (node? : Option Node) : SyntaxFault :=
  match node? with
  | none => ⟨0, 0, "Syntax error"⟩
  | some n =>
    match n.kind with
    | .missing name => ⟨n.startLine, n.start.col, "missing \x60" ++ name ++ "\x60"⟩
    | _ => ⟨n.startLine, n.start.col, "unexpected input"⟩

def parse [Parser] (source : List Char) : Except SyntaxFault Node :=
  let tree := Parser.tree source
  if tree.hasError then .error (.of tree.root.firstFault?) else .ok tree.root

end AsyncSpread.Python
