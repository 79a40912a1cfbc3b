import AsyncSpread.Proofs.Python.Trees
import AsyncSpread.Python.NameIndex
import AsyncSpread.Python.Parser

/-!
What is known of the trees of Python texts.

The parser is a parameter, and this is all that the theory takes for granted of it: the tree of a
text in which nothing is wrong is `Node.Lawful`.  The laws say how nodes lie in the text, how tokens
are written, what the rules of the grammar put where, and that layout gives compound statements and
decorators lines of their own.
-/

namespace AsyncSpread

/-- Whether every ASCII character of a text is a letter, a digit or an underscore. -/
def Text.isWord (cs : List Char) : Bool := cs.all fun c => 128 ≤ c.toNat || c.isAlphanum || c == '_'

theorem Text.not_mem_of_isWord {cs : List Char} {c : Char} (h : isWord cs = true)
    (hc : (128 ≤ c.toNat || c.isAlphanum || c == '_') = false) : c ∉ cs := by
  intro hmem
  have hword := List.all_eq_true.1 h c hmem
  rw [hc] at hword
  cases hword

namespace Python

theorem Keyword.isWord_chars (k : Keyword) : Text.isWord k.chars = true := by
  cases k <;> decide

/-! ## Kinds -/

def Kind.openings : Kind → List Kind
  | .functionDefinition => [.keyword .asyncWord, .keyword .defWord]
  | .classDefinition => [.keyword .classWord]
  | .decorator => [.mark .at]
  | .ifStatement => [.keyword .ifWord]
  | .forStatement => [.keyword .asyncWord, .keyword .forWord]
  | .whileStatement => [.keyword .whileWord]
  | .tryStatement => [.keyword .tryWord]
  | .withStatement => [.keyword .asyncWord, .keyword .withWord]
  | .matchStatement => [.keyword .matchWord]
  | _ => []

def Kind.leads (k : Kind) : Bool := !k.openings.isEmpty

theorem openings_cases {k k' : Kind} (h : k' ∈ k.openings) :
    (∃ w : Keyword, k' = .keyword w) ∨ k' = .mark .at := by
  unfold Kind.openings at h
  split at h <;> simp only [List.mem_cons, List.not_mem_nil, or_false] at h
  case h_3 => exact .inr h
  all_goals rcases h with rfl | rfl <;> exact .inl ⟨_, rfl⟩

/-- A kind that is named and no trivia. -/
def Kind.isTerm (k : Kind) : Bool := k.isNamed && !k.isTrivia

def functionParts : List Kind := [.typeParameter, .parameters, .type, .block]

/-- Nodes in which no definition stands. -/
def plainKinds : List Kind := [.typeParameter, .parameters, .type, .lambda, .decorator]

section

variable {k : Kind}

theorem mem_plainKinds_of_ne_block (h : k ∈ functionParts) (hne : k ≠ .block) : k ∈ plainKinds := by
  simp only [functionParts, List.mem_cons, List.not_mem_nil, or_false] at h
  rcases h with rfl | rfl | rfl | rfl
  · decide
  · decide
  · decide
  · exact absurd rfl hne

theorem scope?_of_mem_plainKinds (h : k ∈ plainKinds) : k.scope? = none := by
  simp only [plainKinds, List.mem_cons, List.not_mem_nil, or_false] at h
  rcases h with rfl | rfl | rfl | rfl | rfl <;> rfl

end

namespace Node

variable {n : Node}

/-- A compound statement or a decorator. -/
def Leads (n : Node) : Prop := n.kind.leads = true

/-- A class or a function. -/
def IsScope (n : Node) : Prop := n.kind.scope?.isSome = true

theorem isScope_iff : n.IsScope ↔ n.kind = .functionDefinition ∨ n.kind = .classDefinition := by
  unfold IsScope Kind.scope?
  split <;> simp_all

theorem IsScope.leads (h : n.IsScope) : n.Leads := by
  rcases isScope_iff.1 h with h | h
  · rw [Leads, h]
    rfl
  · rw [Leads, h]
    rfl

/-- A node in front of which something may be inserted. -/
def isOpener (n : Node) : Bool :=
  n.kind = .call || n.kind = .functionDefinition || n.kind = .decorator

theorem isOpener_iff :
    n.isOpener = true ↔ n.kind = .call ∨ n.kind = .functionDefinition ∨ n.kind = .decorator := by
  simp [isOpener, or_assoc]

/-! ## Single nodes -/

/-- A leaf with these characters as its text. -/
structure IsToken (source : List Char) (n : Node) (chars : List Char) : Prop where
  bare : n.children = []
  filled : n.start.byte < n.stop.byte
  text : n.text source = chars

/-- A node is trivia or a leaf, or it is of one of some kinds. -/
def Shown (kinds : List Kind) (n : Node) : Prop :=
  n.isTrivia = true ∨ n.children = [] ∨ n.kind ∈ kinds

/-- A node is another one in parentheses, with trivia before and behind it. -/
structure Encloses (n : Node) (before : List Node) (inner : Node) (after : List Node) : Prop where
  kind : n.kind = .parenthesizedExpression
  children : ∃ left right, n.children = left :: (before ++ inner :: (after ++ [right])) ∧
    left.kind = .mark .openParen ∧ right.kind = .mark .closeParen
  before : ∀ x ∈ before, x.isTrivia = true
  after : ∀ x ∈ after, x.isTrivia = true
  inner : inner.kind.isTerm = true

/-- What needs a line of its own, in a node or as the node, begins in a later row than another node
stops in. -/
def Over (n m : Node) : Prop := n.isTrivia = false → ∀ y ∈ m.all, y.Leads → n.stop.row < y.start.row

end Node

/-- A span that takes the rest of its line. -/
def Fills (source : List Char) (p q : Pos) : Prop :=
  ∃ before inside after, source = before ++ inside ++ after ∧ p = Pos.start.past before ∧
    q = Pos.start.past (before ++ inside) ∧ '\n' ∉ inside ∧ ∀ c ∈ after.head?, c = '\n'

/-- A place that is not in front of the end of a line. -/
def GoesOn (source : List Char) (p : Pos) : Prop :=
  ∀ c ∈ (Text.dropBytes p.byte source).head?, c ≠ '\n'

/-! ## Trees -/

/-- A tree that lies in its text as that of a Python module does: its nodes are nested, its tokens
have text, and calls, compound statements and decorators begin and end as the grammar says. -/
structure Node.Shaped (source : List Char) (root : Node) : Prop where
  nested : root.Nested source
  keyword : ∀ x ∈ root.all, ∀ k, x.kind = .keyword k → x.IsToken source k.chars
  mark : ∀ x ∈ root.all, ∀ m ∈ [Mark.at, .closeParen], x.kind = .mark m → x.IsToken source m.chars
  /-- Compound statements and decorators begin with their words. -/
  opening : ∀ x ∈ root.all, x.Leads → ∃ leaf rest, x.children = leaf :: rest ∧
    leaf.kind ∈ x.kind.openings ∧ leaf.start = x.start
  /-- A call ends with the parenthesis of its arguments. -/
  closing : ∀ x ∈ root.all, x.kind = .call → ∃ arguments ∈ x.children.getLast?,
    arguments.stop = x.stop ∧
    ∃ leaf ∈ arguments.children.getLast?, leaf.kind = .mark .closeParen ∧ leaf.stop = arguments.stop
  /-- A call is an expression, and no definition and no decorator is part of one. -/
  call : ∀ x ∈ root.all, x.kind = .call → ∀ y ∈ x.inner, y.kind.scope? = none ∧ y.kind ≠ .decorator
  /-- A name, a bracket or arguments stand behind a call that something builds on. -/
  built : ∀ x ∈ root.all, x.kind = .attribute ∨ x.kind = .subscript ∨ x.kind = .call →
    ∃ y rest, x.children = y :: rest ∧ (y.kind = .call → y.stop.byte < x.stop.byte)

/-- The laws of the tree of a Python text. -/
structure Node.Lawful (source : List Char) (root : Node) : Prop
    extends Node.Shaped source root where
  trivia : ∀ x ∈ root.all, x.isTrivia = true → x.children = []
  comment : ∀ x ∈ root.all, x.kind = .comment → Fills source x.start x.stop
  identifier : ∀ x ∈ root.all, x.kind = .identifier → Text.isWord (x.text source) = true
  named : ∀ x ∈ root.all, x.IsScope → ∃ m ∈ x.children, m.kind = .identifier
  /-- A class or a function ends with its body. -/
  body : ∀ x ∈ root.all, x.IsScope → ∃ front body, x.children = front ++ [body] ∧
    body.kind = .block ∧ body.stop = x.stop
  /-- Words and marks aside, a function is made of its parts. -/
  parts : ∀ x ∈ root.all, x.kind = .functionDefinition → ∀ c ∈ x.children, c.Shown functionParts
  plain : ∀ x ∈ root.all, x.kind ∈ plainKinds → ∀ y ∈ x.inner, y.kind.scope? = none
  /-- Behind decorators stands the definition that they decorate. -/
  decorated : ∀ x ∈ root.all, x.kind = .decoratedDefinition →
    ∃ front d, x.children = front ++ [d] ∧ d.IsScope ∧
    (∀ y ∈ front, y.Shown [.decorator]) ∧ ∃ c ∈ front.head?, c.kind = .decorator ∧ c.start = x.start
  parenthesized : ∀ x ∈ root.all, x.kind = .parenthesizedExpression →
    ∃ before inner after, x.Encloses before inner after
  /-- No token of code is the end of a line. -/
  onset : ∀ x ∈ root.all, x.isOpener = true → GoesOn source x.start
  /-- Of two compound statements or decorators the second begins in a later row, and if it is not
  inside the first one in a later row than that stops in. -/
  rows : root.all.Pairwise fun x y =>
    x.Leads → y.Leads → x.start.row < y.start.row ∧ (y ∈ x.inner ∨ x.stop.row < y.start.row)
  /-- What stands in a module stops in a row before that of each compound statement behind it. -/
  apart : root.children.Pairwise Node.Over

/-- A parser whose trees of Python texts are lawful. -/
class LawfulParser [Parser] : Prop where
  lawful : ∀ source, (Parser.tree source).hasError = false → (Parser.tree source).root.Lawful source

variable {source : List Char} {root x : Node}

theorem lawful_of_parse [Parser] [LawfulParser] (h : parse source = .ok root) :
    root.Lawful source := by
  unfold parse at h
  simp only at h
  split at h
  · cases h
  · rename_i hno
    cases h
    exact LawfulParser.lawful source (Bool.eq_false_iff.2 hno)

namespace Node.Lawful

/-- Of two definitions of a text the second begins in a later row. -/
theorem pairwise_scopes (h : root.Lawful source) :
    root.all.Pairwise fun x y => x.IsScope → y.IsScope → x.start.row < y.start.row :=
  h.rows.imp fun h hx hy => (h hx.leads hy.leads).1

theorem not_dot (h : root.Lawful source) (hx : x ∈ root.all) (hk : x.kind = .identifier) :
    '.' ∉ x.text source :=
  Text.not_mem_of_isWord (h.identifier x hx hk) (by decide)

end Node.Lawful

end Python

end AsyncSpread
