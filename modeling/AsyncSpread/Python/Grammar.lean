import AsyncSpread.Python.Rule

/-!
The grammar of Python source: statements, expressions, patterns, and the strings that hold
expressions.

Operators are layered from the loosest to the tightest: conditional, `or`, `and`, `not`, comparison,
`|`, `&`, `^`, shifts, sums, products, signs and `await`, powers, and last what is written behind an
operand.  The operand of `await` is an operand of a sign, so a power belongs to it: `await f() ** 2`
awaits the power.
-/

namespace AsyncSpread.Python

/-- The named rules. -/
inductive Phrase where
  | statement
  | simpleStatement
  | suite
  | expression
  | expressions
  | disjunction
  | inversion
  | bitOr
  | unary
  | primary
  | string
  | interpolation
  | target
  | targets
  | assignment
  | yieldExpression
  | typeExpression
  | casePattern
  | functionDefinition
  | classDefinition
deriving DecidableEq, Repr

namespace Grammar

abbrev R := Rule Phrase

open Rule in
/-! ## Words, lists and tests on what has been read -/

/-- A name where nothing else can be meant: behind a dot, `def`, `class`, `import`. -/
def anyWord : R := .word []

/-- A name where an expression may begin.  These keywords begin expressions of their own. -/
def operandWord : R :=
  .word [.lambdaWord, .notWord, .trueWord, .falseWord, .noneWord, .yieldWord]

def kw (k : Keyword) : R := .keyword k

def expression : R := .rule .expression

def solid (ns : List Node) : List Node := ns.filter fun n => !n.isTrivia

/-- Whether what has been read is one node of one of these kinds. -/
def isOne (ks : List Kind) (ns : List Node) : Bool :=
  match solid ns with
  | [n] => ks.contains n.kind
  | _ => false

def closed (base : R) (tails : List (Kind × R)) : R :=
  .only (isOne (tails.map Prod.fst)) (.extend base tails)

mutual

/-- Whether an expression can be assigned to: a name, attribute or subscript, or a row of such in
brackets. -/
def isTarget : Node → Bool
  | .mk kind _ _ children =>
    match kind with
    | .identifier | .attribute | .subscript | .listSplatPattern => true
    | .tuple | .list | .parenthesizedExpression | .listSplat => areTargets children
    | _ => false

def areTargets : List Node → Bool
  | [] => true
  | n :: ns => (!n.kind.isNamed || n.isTrivia || isTarget n) && areTargets ns

end

def isAssignable (ns : List Node) : Bool :=
  match solid ns with
  | [n] => isTarget n
  | _ => false

/-! ## Atoms -/

/-- One literal of a string: its pieces of text and its fields. -/
def string : R :=
  .node .string <| .sequence [.leaf .stringStart .stringStart,
    .many (.orElse (.leaf .stringText .stringContent) (.rule .interpolation)),
    .leaf .stringEnd .stringEnd]

/-- The format behind the colon of a field, which may hold fields again. -/
def formatSpecifier : R :=
  .node .formatSpecifier <| .andThen (.mark .colon)
    (.many (.orElse (.leaf .formatText .stringContent) (.rule .interpolation)))

def interpolation : R :=
  .node .interpolation <| .sequence [.mark .openBrace,
    .orElse (.rule .yieldExpression) (.rule .expressions),
    .optional (.mark .assign), .optional (.leaf .conversion .typeConversion),
    .optional formatSpecifier, .mark .closeBrace]

def strings : R :=
  .extend (.rule .string) [(.concatenatedString, .andThen (.rule .string) (.many (.rule .string)))]

def listSplat : R := .node .listSplat <| .andThen (.mark .star) expression

def dictionarySplat : R := .node .dictionarySplat <| .andThen (.mark .power) expression

def element : R := .oneOf [listSplat, .rule .yieldExpression, expression]

def comprehension : R :=
  let within : R :=
    .andThen (.unless [.keyword .ifWord, .keyword .forWord, .keyword .asyncWord]) expression
  let forIn : R := .node .forInClause <| .sequence [.optional (kw .asyncWord), kw .forWord,
    .rule .targets, kw .inWord, .commas within]
  let ifClause : R := .node .ifClause <| .andThen (kw .ifWord) expression
  .andThen forIn (.many (.orElse forIn ifClause))

/-- What stands in parentheses: an expression, a tuple or a generator. -/
def parenthesized : R :=
  .orElse (.node .tuple <| .andThen (.mark .openParen) (.mark .closeParen)) <|
    closed (.andThen (.mark .openParen) element)
      [(.parenthesizedExpression, .mark .closeParen),
       (.generatorExpression, .andThen comprehension (.mark .closeParen)),
       (.tuple, .sequence [.mark .comma, .optional (.commas element), .mark .closeParen])]

def bracketed : R :=
  .orElse (.node .list <| .andThen (.mark .openBracket) (.mark .closeBracket)) <|
    closed (.andThen (.mark .openBracket) element)
      [(.list, .mark .closeBracket),
       (.listComprehension, .andThen comprehension (.mark .closeBracket)),
       (.list, .sequence [.mark .comma, .optional (.commas element), .mark .closeBracket])]

/-- What stands in braces: a dictionary if it is empty or begins with a pair, a set otherwise. -/
def braced : R :=
  let pair : R := .node .pair <| .sequence [expression, .mark .colon, expression]
  let entry : R := .orElse dictionarySplat pair
  .oneOf [.node .dictionary <| .andThen (.mark .openBrace) (.mark .closeBrace),
    closed (.andThen (.mark .openBrace) entry)
      [(.dictionary, .mark .closeBrace),
       (.dictionaryComprehension, .andThen comprehension (.mark .closeBrace)),
       (.dictionary, .sequence [.mark .comma, .optional (.commas entry), .mark .closeBrace])],
    closed (.andThen (.mark .openBrace) element)
      [(.set, .mark .closeBrace),
       (.setComprehension, .andThen comprehension (.mark .closeBrace)),
       (.set, .sequence [.mark .comma, .optional (.commas element), .mark .closeBrace])]]

def attributeTail : Kind × R := (.attribute, .andThen (.mark .dot) anyWord)

def slice : R :=
  .sequence [.mark .colon, .optional expression,
    .optional (.andThen (.mark .colon) (.optional expression))]

def subscriptTail : Kind × R :=
  let item : R := .orElse (.node .slice slice) (.extend expression [(.slice, slice)])
  (.subscript, .sequence [.mark .openBracket, .commas item, .mark .closeBracket])

/-- A star in front of something that can be assigned to is an operand, too. -/
def starred : R :=
  .node .listSplat <| .andThen (.mark .star) <|
    .only (isOne [.identifier, .attribute, .subscript])
      (.grow operandWord [attributeTail, subscriptTail])

def atom : R :=
  .oneOf [strings, .leaf .integer .integer, .leaf .float .float,
    .leaf (.keyword .trueWord) .trueLiteral, .leaf (.keyword .falseWord) .falseLiteral,
    .leaf (.keyword .noneWord) .noneLiteral, .leaf (.mark .ellipsis) .ellipsis,
    parenthesized, bracketed, braced, starred, operandWord]

/-! ## Operands and operators -/

def keywordArgument : R :=
  .node .keywordArgument <| .sequence [operandWord, .mark .assign, expression]

def argument : R := .oneOf [keywordArgument, listSplat, dictionarySplat, expression]

/-- The arguments of a call.  A single generator needs no parentheses of its own. -/
def arguments : R :=
  .oneOf [.node .argumentList <| .sequence [.mark .openParen, .optional (.mark .comma),
    .mark .closeParen], closed (.andThen (.mark .openParen) argument)
      [(.argumentList, .mark .closeParen),
       (.argumentList, .sequence [.mark .comma, .optional (.commas argument), .mark .closeParen])],
    .node .generatorExpression <| .sequence [.mark .openParen, expression, comprehension,
      .mark .closeParen]]

def primary : R := .grow atom [attributeTail, (.call, arguments), subscriptTail]

/-- Signs, `await`, and powers, whose right side may have a sign again. -/
def unary : R :=
  let sign : R := .oneOf [.mark .plus, .mark .minus, .mark .tilde]
  .oneOf [.node .unaryOperator <| .andThen sign (.rule .unary),
    .node .await <| .andThen (kw .awaitWord) (.rule .unary),
    .extend (.rule .primary) [(.binaryOperator, .andThen (.mark .power) (.rule .unary))]]

def layer (operand : R) (marks : List Mark) : R :=
  .grow operand [(.binaryOperator, .andThen (.oneOf (marks.map .mark)) operand)]

def bitOr : R :=
  let product := layer (.rule .unary) [.star, .at, .slash, .percent, .floorDivide]
  let sum := layer product [.plus, .minus]
  let shift := layer sum [.leftShift, .rightShift]
  layer (layer (layer shift [.caret]) [.ampersand]) [.bar]

def comparisonMark : R :=
  .oneOf [.mark .less, .mark .lessEqual, .mark .equal, .mark .notEqual, .mark .greaterEqual,
    .mark .greater, .mark .lessGreater, kw .inWord, .andThen (kw .notWord) (kw .inWord),
    .andThen (kw .isWord) (kw .notWord), kw .isWord]

def comparison : R :=
  let more : R := .andThen comparisonMark (.rule .bitOr)
  .extend (.rule .bitOr) [(.comparisonOperator, .andThen more (.many more))]

/-! ## Parameters -/

/-- The name of a parameter with its annotation and default, where it may have an annotation. -/
def namedParameter (typed : Bool) : R :=
  let byDefault : R := .andThen (.mark .assign) expression
  let annotation : R := .andThen (.mark .colon) (.rule .typeExpression)
  let tails : List (Kind × R) := [(.defaultParameter, byDefault)]
  .extend (.orElse anyWord (.rule .target)) <|
    if typed then (.typedDefaultParameter, .andThen annotation byDefault) ::
      (.typedParameter, annotation) :: tails
    else tails

def parameter (typed : Bool) : R :=
  let annotated (r : R) : R :=
    if typed then .extend r [(.typedParameter, .andThen (.mark .colon) (.rule .typeExpression))]
      else r
  .oneOf [annotated (.node .listSplatPattern <| .andThen (.mark .star) anyWord),
    annotated (.node .dictionarySplatPattern <| .andThen (.mark .power) anyWord),
    .leaf (.mark .star) .keywordSeparator, .leaf (.mark .slash) .positionalSeparator,
    namedParameter typed]

def parameters : R :=
  .node .parameters <|
    .sequence [.mark .openParen, .optional (.commas (parameter true)), .mark .closeParen]

/-! ## Expressions -/

def lambda : R :=
  .node .lambda <| .sequence [kw .lambdaWord,
    .optional (.node .lambdaParameters (.commas (parameter false))), .mark .colon, expression]

def inversion : R :=
  .oneOf [lambda, .node .notOperator <| .andThen (kw .notWord) (.rule .inversion),
    .node .namedExpression <| .sequence [operandWord, .mark .walrus, .rule .disjunction],
    comparison]

def disjunction : R :=
  let conjunction : R :=
    .grow (.rule .inversion) [(.booleanOperator, .andThen (kw .andWord) (.rule .inversion))]
  .grow conjunction [(.booleanOperator, .andThen (kw .orWord) conjunction)]

def anyExpression : R :=
  .extend (.grow (.rule .disjunction) [(.asPattern, .andThen (kw .asWord) expression)])
    [(.conditionalExpression, .sequence [kw .ifWord, expression, kw .elseWord, expression])]

def expressions : R :=
  .extend expression [(.expressionList, .andThen (.mark .comma) (.optional (.commas expression)))]

def yieldExpression : R :=
  .node .yield <| .andThen (kw .yieldWord) <|
    .orElse (.andThen (kw .fromWord) expression)
      (.andThen (.unless [.keyword .fromWord]) (.optional (.rule .expressions)))

def typeExpression : R := .node .type expression

/-! ## Targets and assignments -/

def target : R :=
  .orElse (.node .listSplatPattern <| .andThen (.mark .star) <|
      .only (isOne [.identifier, .attribute, .subscript]) (.rule .primary))
    (.only isAssignable (.rule .primary))

def targets : R :=
  let next : R := .andThen (.unless [.keyword .inWord]) (.rule .target)
  .extend (.rule .target) [(.patternList, .andThen (.mark .comma) (.optional (.commas next)))]

def assignment : R :=
  let value : R := .oneOf [.rule .assignment, .rule .yieldExpression, .rule .expressions]
  let marks : List Mark := [.plusAssign, .minusAssign, .timesAssign, .divideAssign, .matrixAssign,
    .floorAssign, .moduloAssign, .powerAssign, .rightAssign, .leftAssign, .andAssign,
      .xorAssign, .orAssign]
  closed (.rule .targets)
    [(.assignment, .andThen (.mark .assign) value),
     (.assignment, .sequence [.mark .colon, .rule .typeExpression,
        .optional (.andThen (.mark .assign) value)]),
     (.augmentedAssignment, .andThen (.oneOf (marks.map .mark)) value)]

/-! ## Simple statements -/

def dottedName : R := .node .dottedName <| .separated .dot anyWord

def importList : R :=
  .commas (.extend dottedName [(.aliasedImport, .andThen (kw .asWord) anyWord)])

def importedNames : R :=
  .orElse importList (.sequence [.mark .openParen, importList, .mark .closeParen])

def relativeImport : R :=
  let dots : R := .orElse (.mark .dot) (.mark .ellipsis)
  .node .relativeImport <| .andThen (.node .importPrefix <| .andThen dots (.many dots))
    (.optional (.andThen (.unless [.keyword .importWord]) dottedName))

def importStatements : List R :=
  [.node .importStatement <| .andThen (kw .importWord) importList,
   .node .futureImportStatement <|
     .sequence [kw .fromWord, kw .futureWord, kw .importWord, importedNames],
   .node .importFromStatement <|
     .sequence [kw .fromWord, .orElse relativeImport dottedName, kw .importWord,
       .orElse (.node .wildcardImport (.mark .star)) importedNames]]

/-- The keywords that begin a statement, so that no expression statement begins with them. -/
def statementKeywords : List TokenKind :=
  [.keyword .importWord, .keyword .fromWord, .keyword .assertWord, .keyword .returnWord,
   .keyword .delWord, .keyword .raiseWord, .keyword .passWord, .keyword .breakWord,
   .keyword .continueWord, .keyword .globalWord, .keyword .nonlocalWord, .keyword .ifWord,
   .keyword .forWord, .keyword .whileWord, .keyword .tryWord, .keyword .withWord,
   .keyword .defWord, .keyword .classWord]

/-- An expression, assignment or `yield` on its own.  The end of the statement has to follow, so
that words which only look like an expression are left to other statements. -/
def expressionStatement : R :=
  .sequence [.unless statementKeywords,
    .node .expressionStatement <|
      .oneOf [.rule .assignment, .rule .yieldExpression, .commas expression],
    .before [.newline, .mark .semicolon]]

def printStatement : R :=
  let chevron : R := .node .chevron <| .andThen (.mark .rightShift) expression
  .node .printStatement <| .andThen (kw .printWord) <|
    .orElse (.sequence [chevron, .many (.andThen (.mark .comma) expression),
      .optional (.mark .comma)]) (.commas expression)

def simpleStatement : R :=
  .oneOf <| importStatements ++
    [.node .assertStatement <| .andThen (kw .assertWord) (.separated .comma expression),
     .node .returnStatement <| .andThen (kw .returnWord) (.optional (.rule .expressions)),
     .node .deleteStatement <| .andThen (kw .delWord) (.rule .expressions),
     .node .raiseStatement <| .sequence [kw .raiseWord,
       .optional (.andThen (.unless [.keyword .fromWord]) (.rule .expressions)),
       .optional (.andThen (kw .fromWord) expression)],
     .node .passStatement (kw .passWord), .node .breakStatement (kw .breakWord),
     .node .continueStatement (kw .continueWord),
     .node .globalStatement <| .andThen (kw .globalWord) (.separated .comma anyWord),
     .node .nonlocalStatement <| .andThen (kw .nonlocalWord) (.separated .comma anyWord),
     .node .typeAliasStatement <| .sequence [kw .typeWord, .rule .typeExpression, .mark .assign,
       .rule .typeExpression],
     expressionStatement, printStatement,
     .node .execStatement <| .sequence [kw .execWord, .orElse (.rule .string) anyWord,
       .optional (.andThen (kw .inWord) (.separated .comma expression))]]

def simpleStatements : R :=
  .sequence [.separated .semicolon (.rule .simpleStatement), .optional (.mark .semicolon),
    .layout .newline]

/-- What follows the colon of a compound statement: statements on the same line, an indented block,
or nothing. -/
def suite : R :=
  .oneOf [.node .block simpleStatements,
    .andThen (.layout .indent) (.node .block <|
      .andThen (.many (.rule .statement)) (.layout .dedent)),
    .node .block (.layout .newline)]

/-! ## Compound statements -/

def body : R := .andThen (.mark .colon) (.rule .suite)

def elseClause : R := .node .elseClause <| .andThen (kw .elseWord) body

def ifStatement : R :=
  .node .ifStatement <| .sequence [kw .ifWord, expression, body,
    .many (.node .elifClause <| .sequence [kw .elifWord, expression, body]), .optional elseClause]

def forStatement : R :=
  .node .forStatement <| .sequence [.optional (kw .asyncWord), kw .forWord, .rule .targets,
    kw .inWord, .rule .expressions, body, .optional elseClause]

def whileStatement : R :=
  .node .whileStatement <| .sequence [kw .whileWord, expression, body, .optional elseClause]

def tryStatement : R :=
  let asName : R := .andThen (.orElse (kw .asWord) (.mark .comma)) expression
  let one : R := .node .exceptClause <| .sequence [kw .exceptWord,
    .optional (.andThen expression (.optional asName)), body]
  let group : R := .node .exceptGroupClause <| .sequence [kw .exceptWord, .mark .star,
    expression, .optional asName, body]
  let finallyClause : R := .node .finallyClause <| .andThen (kw .finallyWord) body
  let handlers (clause : R) : R :=
    .sequence [clause, .many clause, .optional elseClause, .optional finallyClause]
  .node .tryStatement <| .sequence [kw .tryWord, body,
    .oneOf [handlers group, handlers one, finallyClause]]

def withStatement : R :=
  .node .withStatement <| .sequence [.optional (kw .asyncWord), kw .withWord,
    .node .withClause (.commas (.node .withItem expression)), body]

def typeParameters : R :=
  let splat : R := .andThen (.orElse (.mark .star) (.mark .power)) anyWord
  let bounded : R := .extend expression [(.type, .andThen (.mark .colon) expression)]
  .node .typeParameter <| .sequence [.mark .openBracket,
    .commas (.node .type (.orElse splat bounded)), .mark .closeBracket]

def functionDefinition : R :=
  .node .functionDefinition <| .sequence [.optional (kw .asyncWord), kw .defWord, anyWord,
    .optional typeParameters, parameters,
    .optional (.andThen (.mark .arrow) (.rule .typeExpression)), body]

def classDefinition : R :=
  .node .classDefinition <| .sequence [kw .classWord, anyWord, .optional typeParameters,
    .optional (.only (isOne [.argumentList]) arguments), body]

def decoratedDefinition : R :=
  let decorator : R := .node .decorator <| .sequence [.mark .at, expression, .layout .newline]
  .node .decoratedDefinition <| .sequence [decorator, .many decorator,
    .orElse (.rule .functionDefinition) (.rule .classDefinition)]

/-! ## Matching -/

/-- A number with its sign, or the sum of two as one complex number. -/
def numberPattern : R :=
  let number : R := .orElse (.leaf .integer .integer) (.leaf .float .float)
  let signed : R := .andThen (.optional (.mark .minus)) number
  .orElse (.node .complexPattern <|
    .sequence [signed, .orElse (.mark .plus) (.mark .minus), number]) signed

def simplePattern : R :=
  let list : R := .optional (.commas (.rule .casePattern))
  let entry : R := .sequence [.rule .casePattern, .mark .colon, .rule .casePattern]
  let splat : R := .node .splatPattern <| .andThen (.orElse (.mark .star) (.mark .power)) anyWord
  .oneOf [splat,
    .node .classPattern <| .sequence [dottedName, .mark .openParen, list, .mark .closeParen],
    .node .keywordPattern <| .sequence [operandWord, .mark .assign, .rule .casePattern],
    .node .listPattern <| .sequence [.mark .openBracket, list, .mark .closeBracket],
    .node .tuplePattern <| .sequence [.mark .openParen, list, .mark .closeParen],
    .node .dictPattern <| .sequence [.mark .openBrace, .optional (.commas (.orElse splat entry)),
      .mark .closeBrace],
    strings, .leaf (.keyword .trueWord) .trueLiteral, .leaf (.keyword .falseWord) .falseLiteral,
    .leaf (.keyword .noneWord) .noneLiteral, numberPattern,
    .andThen (.unless [.keyword .lambdaWord, .keyword .notWord]) dottedName]

def casePattern : R :=
  .node .casePattern <| .andThen (.unless [.keyword .ifWord]) <|
    .extend
      (.extend simplePattern [(.unionPattern, .andThen (.andThen (.mark .bar) simplePattern)
        (.many (.andThen (.mark .bar) simplePattern)))])
      [(.asPattern, .andThen (kw .asWord) anyWord)]

def matchStatement : R :=
  let guard : R := .node .ifClause <| .andThen (kw .ifWord) expression
  let clause : R := .node .caseClause <| .sequence [kw .caseWord, .commas (.rule .casePattern),
    .optional guard, body]
  .node .matchStatement <| .sequence [kw .matchWord, .commas expression, .mark .colon,
    .orElse (.andThen (.layout .indent) (.node .block <| .andThen (.many clause) (.layout .dedent)))
      (.node .block (.layout .newline))]

def statement : R :=
  .oneOf [ifStatement, forStatement, whileStatement, tryStatement, withStatement,
    .rule .functionDefinition, .rule .classDefinition, decoratedDefinition, matchStatement,
    simpleStatements]

def rules : Phrase → R
  | .statement => statement
  | .simpleStatement => simpleStatement
  | .suite => suite
  | .expression => anyExpression
  | .expressions => expressions
  | .disjunction => disjunction
  | .inversion => inversion
  | .bitOr => bitOr
  | .unary => unary
  | .primary => primary
  | .string => string
  | .interpolation => interpolation
  | .target => target
  | .targets => targets
  | .assignment => assignment
  | .yieldExpression => yieldExpression
  | .typeExpression => typeExpression
  | .casePattern => casePattern
  | .functionDefinition => functionDefinition
  | .classDefinition => classDefinition

def module : R := .many (.rule .statement)

end Grammar

/-- How deep rules may nest in a text of so many tokens.  Every bracket, operator and block takes at
least one token, and between two of them lie fewer than a hundred rules. -/
def depthFor (tokens : Nat) : Nat := 120 * (tokens + 4)

def readModule (ts : List Token) : Reading :=
  Rule.read Grammar.rules (depthFor ts.length) Grammar.module (.ofTokens ts)

def isModule (ts : List Token) : Bool := (readModule ts).result.any fun (_, c) => c.ahead.isEmpty

/-- Whether a module may begin with a row of tokens: the reading asks for what comes behind them. -/
def beginsModule (ts : List Token) : Bool := (readModule ts).reach = 0

end AsyncSpread.Python
