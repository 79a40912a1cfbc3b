import AsyncSpread.Python.Token

/-!
Concrete trees of Python source.  Every token and comment is a leaf, so a tree covers the whole text
but for its white space, and each node knows the span of text from its first token to its last.
-/

namespace AsyncSpread.Python

/-- What a node is.  Marks and keywords are leaves without a name of their own; everything else is
named. -/
inductive Kind where
  | mark (m : Mark)
  | keyword (k : Keyword)
  | module
  | importStatement
  | importPrefix
  | relativeImport
  | futureImportStatement
  | importFromStatement
  | aliasedImport
  | wildcardImport
  | printStatement
  | chevron
  | assertStatement
  | expressionStatement
  | namedExpression
  | returnStatement
  | deleteStatement
  | raiseStatement
  | passStatement
  | breakStatement
  | continueStatement
  | ifStatement
  | elifClause
  | elseClause
  | matchStatement
  | caseClause
  | forStatement
  | whileStatement
  | tryStatement
  | exceptClause
  | exceptGroupClause
  | finallyClause
  | withStatement
  | withClause
  | withItem
  | functionDefinition
  | parameters
  | lambdaParameters
  | listSplat
  | dictionarySplat
  | globalStatement
  | nonlocalStatement
  | execStatement
  | typeAliasStatement
  | classDefinition
  | typeParameter
  | argumentList
  | decoratedDefinition
  | decorator
  | block
  | expressionList
  | dottedName
  | casePattern
  | asPattern
  | unionPattern
  | listPattern
  | tuplePattern
  | dictPattern
  | keywordPattern
  | splatPattern
  | classPattern
  | complexPattern
  | defaultParameter
  | typedDefaultParameter
  | typedParameter
  | listSplatPattern
  | dictionarySplatPattern
  | patternList
  | keywordSeparator
  | positionalSeparator
  | notOperator
  | booleanOperator
  | binaryOperator
  | unaryOperator
  | comparisonOperator
  | lambda
  | assignment
  | augmentedAssignment
  | yield
  | attribute
  | subscript
  | slice
  | call
  | type
  | keywordArgument
  | list
  | set
  | tuple
  | dictionary
  | pair
  | listComprehension
  | dictionaryComprehension
  | setComprehension
  | generatorExpression
  | parenthesizedExpression
  | forInClause
  | ifClause
  | conditionalExpression
  | concatenatedString
  | string
  | stringStart
  | stringContent
  | stringEnd
  | interpolation
  | formatSpecifier
  | typeConversion
  | integer
  | float
  | identifier
  | trueLiteral
  | falseLiteral
  | noneLiteral
  | await
  | ellipsis
  | comment
  | lineContinuation
  /-- What does not belong where it stands. -/
  | error
  /-- What is not there and should be; `name` is that of the kind that is missing. -/
  | missing (name : String)
  /-- A kind on which nothing here depends. -/
  | other (name : String) (named : Bool)
deriving DecidableEq, Repr

namespace Kind

def isNamed : Kind → Bool
  | .mark _ | .keyword _ => false
  | .other _ named => named
  | _ => true

/-- Comments and joined lines may stand anywhere between the tokens of a node. -/
def isTrivia : Kind → Bool
  | .comment | .lineContinuation => true
  | _ => false

def name : Kind → String
  | .mark m => String.ofList m.chars
  | .keyword k => String.ofList k.chars
  | .module => "module"
  | .importStatement => "import_statement"
  | .importPrefix => "import_prefix"
  | .relativeImport => "relative_import"
  | .futureImportStatement => "future_import_statement"
  | .importFromStatement => "import_from_statement"
  | .aliasedImport => "aliased_import"
  | .wildcardImport => "wildcard_import"
  | .printStatement => "print_statement"
  | .chevron => "chevron"
  | .assertStatement => "assert_statement"
  | .expressionStatement => "expression_statement"
  | .namedExpression => "named_expression"
  | .returnStatement => "return_statement"
  | .deleteStatement => "delete_statement"
  | .raiseStatement => "raise_statement"
  | .passStatement => "pass_statement"
  | .breakStatement => "break_statement"
  | .continueStatement => "continue_statement"
  | .ifStatement => "if_statement"
  | .elifClause => "elif_clause"
  | .elseClause => "else_clause"
  | .matchStatement => "match_statement"
  | .caseClause => "case_clause"
  | .forStatement => "for_statement"
  | .whileStatement => "while_statement"
  | .tryStatement => "try_statement"
  | .exceptClause => "except_clause"
  | .exceptGroupClause => "except_group_clause"
  | .finallyClause => "finally_clause"
  | .withStatement => "with_statement"
  | .withClause => "with_clause"
  | .withItem => "with_item"
  | .functionDefinition => "function_definition"
  | .parameters => "parameters"
  | .lambdaParameters => "lambda_parameters"
  | .listSplat => "list_splat"
  | .dictionarySplat => "dictionary_splat"
  | .globalStatement => "global_statement"
  | .nonlocalStatement => "nonlocal_statement"
  | .execStatement => "exec_statement"
  | .typeAliasStatement => "type_alias_statement"
  | .classDefinition => "class_definition"
  | .typeParameter => "type_parameter"
  | .argumentList => "argument_list"
  | .decoratedDefinition => "decorated_definition"
  | .decorator => "decorator"
  | .block => "block"
  | .expressionList => "expression_list"
  | .dottedName => "dotted_name"
  | .casePattern => "case_pattern"
  | .asPattern => "as_pattern"
  | .unionPattern => "union_pattern"
  | .listPattern => "list_pattern"
  | .tuplePattern => "tuple_pattern"
  | .dictPattern => "dict_pattern"
  | .keywordPattern => "keyword_pattern"
  | .splatPattern => "splat_pattern"
  | .classPattern => "class_pattern"
  | .complexPattern => "complex_pattern"
  | .defaultParameter => "default_parameter"
  | .typedDefaultParameter => "typed_default_parameter"
  | .typedParameter => "typed_parameter"
  | .listSplatPattern => "list_splat_pattern"
  | .dictionarySplatPattern => "dictionary_splat_pattern"
  | .patternList => "pattern_list"
  | .keywordSeparator => "keyword_separator"
  | .positionalSeparator => "positional_separator"
  | .notOperator => "not_operator"
  | .booleanOperator => "boolean_operator"
  | .binaryOperator => "binary_operator"
  | .unaryOperator => "unary_operator"
  | .comparisonOperator => "comparison_operator"
  | .lambda => "lambda"
  | .assignment => "assignment"
  | .augmentedAssignment => "augmented_assignment"
  | .yield => "yield"
  | .attribute => "attribute"
  | .subscript => "subscript"
  | .slice => "slice"
  | .call => "call"
  | .type => "type"
  | .keywordArgument => "keyword_argument"
  | .list => "list"
  | .set => "set"
  | .tuple => "tuple"
  | .dictionary => "dictionary"
  | .pair => "pair"
  | .listComprehension => "list_comprehension"
  | .dictionaryComprehension => "dictionary_comprehension"
  | .setComprehension => "set_comprehension"
  | .generatorExpression => "generator_expression"
  | .parenthesizedExpression => "parenthesized_expression"
  | .forInClause => "for_in_clause"
  | .ifClause => "if_clause"
  | .conditionalExpression => "conditional_expression"
  | .concatenatedString => "concatenated_string"
  | .string => "string"
  | .stringStart => "string_start"
  | .stringContent => "string_content"
  | .stringEnd => "string_end"
  | .interpolation => "interpolation"
  | .formatSpecifier => "format_specifier"
  | .typeConversion => "type_conversion"
  | .integer => "integer"
  | .float => "float"
  | .identifier => "identifier"
  | .trueLiteral => "true"
  | .falseLiteral => "false"
  | .noneLiteral => "none"
  | .await => "await"
  | .ellipsis => "ellipsis"
  | .comment => "comment"
  | .lineContinuation => "line_continuation"
  | .error => "ERROR"
  | .missing name => name
  | .other name _ => name

end Kind

/-- A node: its kind, its span, and its children in the order of the text. -/
inductive Node where
  | mk (kind : Kind) (start stop : Pos) (children : List Node)
deriving Repr

namespace Node

def kind : Node → Kind
  | mk k _ _ _ => k

def start : Node → Pos
  | mk _ p _ _ => p

def stop : Node → Pos
  | mk _ _ p _ => p

def children : Node → List Node
  | mk _ _ _ ns => ns

@[simp] theorem kind_mk (k : Kind) (p q : Pos) (ns : List Node) : (mk k p q ns).kind = k := rfl
@[simp] theorem start_mk (k : Kind) (p q : Pos) (ns : List Node) : (mk k p q ns).start = p := rfl
@[simp] theorem stop_mk (k : Kind) (p q : Pos) (ns : List Node) : (mk k p q ns).stop = q := rfl
@[simp] theorem children_mk (k : Kind) (p q : Pos) (ns : List Node) :
    (mk k p q ns).children = ns := rfl

def isTrivia (n : Node) : Bool := n.kind.isTrivia

def namedChildren (n : Node) : List Node := n.children.filter fun c => c.kind.isNamed

/-- The last of some nodes stops here, or at the given place if there is none. -/
def stopOf (p : Pos) : List Node → Pos
  | [] => p
  | [n] => n.stop
  | _ :: ns => stopOf p ns

/-- Makes one node of a row of nodes.  Trivia in front of it stays outside, since the node begins
with a token; a row without a token makes an empty node at `p`. -/
def wrap (k : Kind) (p : Pos) (row : List Node) : List Node :=
  let outside := row.takeWhile isTrivia
  let inside := row.dropWhile isTrivia
  let first := match inside with
    | [] => p
    | n :: _ => n.start
  outside ++ [mk k first (stopOf p inside) inside]

def startLine (n : Node) : Nat := n.start.row + 1

/-- The last line of a node, counted from 1.  A node that stops at the very start of a line ends
with the line before. -/
def endLine (n : Node) : Nat :=
  if n.stop.col = 0 ∧ n.start.row < n.stop.row then n.stop.row else n.stop.row + 1

/-- What a call calls, what an attribute belongs to, what is subscripted: a node that builds on an
expression has it as its first child. -/
def head? (n : Node) : Option Node := n.children.head?

def last? (n : Node) : Option Node := n.children.getLast?

end Node

end AsyncSpread.Python
