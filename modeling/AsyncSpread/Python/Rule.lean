import AsyncSpread.Python.Tree

/-!
Grammars as data, and the one reader that runs them.

A rule takes tokens from the front of a row and makes nodes of them.  Choices are ordered and a rule
takes as much as it can, so a text has at most one reading.  Since the tree is built by the rules
alone, whatever holds of every rule holds of every tree that is read.
-/

namespace AsyncSpread.Python

/-- A rule over the named rules `σ`. -/
inductive Rule (σ : Type) where
  /-- A mark, as a leaf. -/
  | mark (m : Mark)
  /-- A keyword, as a leaf. -/
  | keyword (k : Keyword)
  /-- A token of the given kind, as a leaf of another. -/
  | leaf (t : TokenKind) (k : Kind)
  /-- A word, as an identifier.  A keyword is a word like any other where it cannot be meant as a
  keyword; the exceptions are those that can. -/
  | word (except : List Keyword)
  /-- A token that is part of the layout and leaves no node. -/
  | layout (t : TokenKind)
  /-- Nothing at all. -/
  | nothing
  /-- One rule, then another. -/
  | andThen (first second : Rule σ)
  /-- The first rule, or else the second. -/
  | orElse (first second : Rule σ)
  /-- A rule as often as it goes. -/
  | many (r : Rule σ)
  /-- What a rule reads, as one node. -/
  | node (k : Kind) (r : Rule σ)
  /-- What a rule reads, and then as often as one of the tails goes, everything so far as one
  node. -/
  | grow (base : Rule σ) (tails : List (Kind × Rule σ))
  /-- Like `grow`, but for one tail at most. -/
  | extend (base : Rule σ) (tails : List (Kind × Rule σ))
  /-- What a rule reads, if its nodes pass a test. -/
  | only (check : List Node → Bool) (r : Rule σ)
  /-- Nothing, provided that the next token is none of these. -/
  | unless (ts : List TokenKind)
  /-- Nothing, provided that the next token is one of these. -/
  | before (ts : List TokenKind)
  /-- A named rule. -/
  | rule (n : σ)

namespace Rule

variable {σ : Type}

def optional (r : Rule σ) : Rule σ := .orElse r .nothing

def sequence : List (Rule σ) → Rule σ
  | [] => .nothing
  | [r] => r
  | r :: rs => .andThen r (sequence rs)

def oneOf : List (Rule σ) → Rule σ
  | [] => .only (fun _ => false) .nothing
  | [r] => r
  | r :: rs => .orElse r (oneOf rs)

def separated (m : Mark) (r : Rule σ) : Rule σ := .andThen r (.many (.andThen (.mark m) r))

/-- One or more of something with commas in between, and perhaps one behind. -/
def commas (r : Rule σ) : Rule σ := .andThen (separated .comma r) (optional (.mark .comma))

end Rule

/-- Where a reading stands: the tokens ahead, how many they are, and where the last one taken
stopped. -/
structure Cursor where
  ahead : List Token
  count : Nat
  last : Pos

namespace Cursor

def ofTokens (ts : List Token) : Cursor := ⟨ts, ts.length, .start⟩

end Cursor

def Trivia.node (t : Trivia) : Node :=
  .mk (match t.kind with | .comment => .comment | .continuation => .lineContinuation) t.start t.stop
    []

def Token.leaf (t : Token) (k : Kind) : List Node :=
  t.before.map Trivia.node ++ [.mk k t.start t.stop []]

/-- The result of reading, and how few tokens were left at the farthest token that was looked at. -/
structure Reading where
  result : Option (List Node × Cursor)
  reach : Nat

namespace Reading

def fail (reach : Nat) : Reading := ⟨none, reach⟩

/-- The same result, when other attempts have got as far as `reach`. -/
def noting (r : Reading) (reach : Nat) : Reading := ⟨r.result, min r.reach reach⟩

def staying (r : Reading) (c : Cursor) : Reading := ⟨r.result.map fun _ => ([], c), r.reach⟩

end Reading

namespace Cursor

def take (c : Cursor) (nodes : Token → Option (List Node)) : Reading :=
  match c.ahead with
  | [] => .fail 0
  | t :: rest =>
    match nodes t with
    | some ns => ⟨some (ns, ⟨rest, c.count - 1, t.stop⟩), c.count⟩
    | none => .fail c.count

end Cursor

namespace Rule

variable {σ : Type}

def firstTail (read : Rule σ → Cursor → Reading) (c : Cursor) :
    List (Kind × Rule σ) → Option (Kind × List Node × Cursor) × Nat
  | [] => (none, c.count)
  | (k, r) :: rest =>
    let reading := read r c
    match reading.result with
    | some (ns, c') => (some (k, ns, c'), reading.reach)
    | none =>
      let (found, reach) := firstTail read c rest
      (found, min reading.reach reach)

/-- Reads as often as it goes.  The number bounds the repetitions; a repetition that takes no token
is the last, so the number of tokens is enough. -/
def readMany (read : Cursor → Reading) : Nat → Cursor → Reading
  | 0, c => ⟨some ([], c), c.count⟩
  | n + 1, c =>
    let one := read c
    match one.result with
    | none => ⟨some ([], c), one.reach⟩
    | some (ns, c') =>
      if c'.count < c.count then
        let more := readMany read n c'
        match more.result with
        | none => more.noting one.reach
        | some (ms, c'') => ⟨some (ns ++ ms, c''), min one.reach more.reach⟩
      else ⟨some ([], c), one.reach⟩

/-- Reads tails as often as they go, each time making one node of everything so far. -/
def readTails (read : Rule σ → Cursor → Reading) (tails : List (Kind × Rule σ)) :
    Nat → List Node → Cursor → Reading
  | 0, ns, c => ⟨some (ns, c), c.count⟩
  | n + 1, ns, c =>
    match firstTail read c tails with
    | (none, reach) => ⟨some (ns, c), reach⟩
    | (some (k, ms, c'), reach) =>
      if c'.count < c.count then
        (readTails read tails n (Node.wrap k c'.last (ns ++ ms)) c').noting reach
      else ⟨some (ns, c), reach⟩

/-- Reads a rule.  `grammar` gives the named rules their meaning; the number bounds the depth of the
reading. -/
def read (grammar : σ → Rule σ) : Nat → Rule σ → Cursor → Reading
  | 0, _, c => .fail c.count
  | n + 1, r, c =>
    match r with
    | .mark m => c.take fun t => if t.kind = .mark m then some (t.leaf (.mark m)) else none
    | .keyword k => c.take fun t => if t.kind = .keyword k then some (t.leaf (.keyword k)) else none
    | .leaf kind k => c.take fun t => if t.kind = kind then some (t.leaf k) else none
    | .word except => c.take fun t =>
      match t.kind with
      | .name => some (t.leaf .identifier)
      | .keyword k => if except.contains k then none else some (t.leaf .identifier)
      | _ => none
    | .layout kind => c.take fun t =>
      if t.kind = kind then some (t.before.map Trivia.node) else none
    | .nothing => ⟨some ([], c), c.count⟩
    | .andThen first second =>
      let one := read grammar n first c
      match one.result with
      | none => one
      | some (ns, c') =>
        let two := read grammar n second c'
        match two.result with
        | none => two.noting one.reach
        | some (ms, c'') => ⟨some (ns ++ ms, c''), min one.reach two.reach⟩
    | .orElse first second =>
      let one := read grammar n first c
      match one.result with
      | some _ => one
      | none => (read grammar n second c).noting one.reach
    | .many r => readMany (read grammar n r) (c.count + 1) c
    | .node k r =>
      let one := read grammar n r c
      match one.result with
      | none => one
      | some (ns, c') => ⟨some (Node.wrap k c'.last ns, c'), one.reach⟩
    | .grow base tails =>
      let one := read grammar n base c
      match one.result with
      | none => one
      | some (ns, c') => (readTails (read grammar n) tails (c'.count + 1) ns c').noting one.reach
    | .extend base tails =>
      let one := read grammar n base c
      match one.result with
      | none => one
      | some (ns, c') => (readTails (read grammar n) tails 1 ns c').noting one.reach
    | .only check r =>
      let one := read grammar n r c
      match one.result with
      | none => one
      | some (ns, _) => if check ns then one else .fail one.reach
    | .unless kinds =>
      match c.ahead with
      | t :: _ => if kinds.contains t.kind then .fail c.count else ⟨some ([], c), c.count⟩
      | [] => ⟨some ([], c), c.count⟩
    | .before kinds =>
      c.take (fun t => if kinds.contains t.kind then some [] else none) |>.staying c
    | .rule name => read grammar n (grammar name) c

end Rule

end AsyncSpread.Python
