import AsyncSpread.Plan
import AsyncSpread.Python.NameIndex

/-!
What is written at a call.  Parentheses around the thing that is called do not matter; a thing that
is neither a name, an attribute, a call nor a subscript has no name that a plan could use.
-/

namespace AsyncSpread.Rewrite

open Python

inductive CallTarget where
  /-- `f()` -/
  | name (text : String)
  /-- `object.method()`, by the last name. -/
  | attribute (text : String)
  /-- `f()()` -/
  | call
  /-- `handlers[0]()` -/
  | subscript
deriving DecidableEq, Repr

/-- The name a plan uses for a target. -/
def CallTarget.literal : CallTarget → String
  | .name t => t
  | .attribute t => t
  | .call => anonymousCall
  | .subscript => anonymousSubscript

/-- A call target without a name: what it is and where, the line from 1 and the column in bytes from
0. -/
structure Unsupported where
  kind : Kind
  line : Nat
  column : Nat
deriving DecidableEq, Repr

def Unsupported.of (n : Node) : Unsupported := ⟨n.kind, n.startLine, n.start.col⟩

mutual

def CallTarget.ofNode (source : List Char) : Node → Except Unsupported CallTarget
  | .mk kind start stop children =>
    let n : Node := .mk kind start stop children
    match kind with
    | .identifier => .ok (.name (String.ofList (n.text source)))
    | .attribute =>
      match n.last? with
      | some a => .ok (.attribute (String.ofList (a.text source)))
      | none => .error (.of n)
    | .call => .ok .call
    | .subscript => .ok .subscript
    | .parenthesizedExpression => CallTarget.ofFirstNamed source (.of n) children
    | _ => .error (.of n)

/-- Classifies the first named node of some, which may be a comment. -/
def CallTarget.ofFirstNamed (source : List Char) (none : Unsupported) :
    List Node → Except Unsupported CallTarget
  | [] => .error none
  | n :: ns =>
    if n.kind.isNamed then CallTarget.ofNode source n else CallTarget.ofFirstNamed source none ns

end

def targetOf (source : List Char) (call : Node) : Except Unsupported CallTarget :=
  match call.head? with
  | some f => CallTarget.ofNode source f
  | none => .error (.of call)

def literalOf (source : List Char) (call : Node) : Except Unsupported String :=
  (targetOf source call).map CallTarget.literal

mutual

def callsOf : Node → List Node
  | .mk kind start stop children =>
    let inner := callsOfAll children
    if kind = .call then .mk kind start stop children :: inner else inner

def callsOfAll : List Node → List Node
  | [] => []
  | n :: ns => callsOf n ++ callsOfAll ns

end

end AsyncSpread.Rewrite
