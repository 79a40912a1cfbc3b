/-!
The words and marks of Python source, and the tokens a text is cut into.

A token knows where it starts and stops, and carries the comments and continued line ends that stand
between the token before it and itself.  `newline`, `indent` and `dedent` are tokens without
text: they say how the lines are laid out, and stand at the end of what precedes them.
-/

namespace AsyncSpread.Python

/-- A place in a text: the byte offset, the line and the byte column, all counted from 0. -/
structure Pos where
  byte : Nat
  row : Nat
  col : Nat
deriving DecidableEq, Repr, Inhabited

namespace Pos

def start : Pos := ⟨0, 0, 0⟩

/-- The place after one character.  Only a line feed begins a new line. -/
def next (p : Pos) (c : Char) : Pos :=
  if c = '\n' then ⟨p.byte + 1, p.row + 1, 0⟩
  else ⟨p.byte + c.utf8Size, p.row, p.col + c.utf8Size⟩

def past (p : Pos) (cs : List Char) : Pos := cs.foldl next p

@[simp] theorem past_nil (p : Pos) : p.past [] = p := rfl

@[simp] theorem past_cons (p : Pos) (c : Char) (cs : List Char) :
    p.past (c :: cs) = (p.next c).past cs := rfl

theorem past_append (p : Pos) (cs ds : List Char) : p.past (cs ++ ds) = (p.past cs).past ds := by
  simp [past]

theorem byte_lt_next (p : Pos) (c : Char) : p.byte < (p.next c).byte := by
  unfold next
  split
  · simp
  · simpa using c.utf8Size_pos

theorem byte_le_past (p : Pos) (cs : List Char) : p.byte ≤ (p.past cs).byte := by
  induction cs generalizing p with
  | nil => simp
  | cons c cs ih => exact Nat.le_trans (Nat.le_of_lt (p.byte_lt_next c)) (ih _)

end Pos

inductive Mark where
  | powerAssign
  | floorAssign
  | leftAssign
  | rightAssign
  | ellipsis
  | plusAssign
  | minusAssign
  | timesAssign
  | divideAssign
  | moduloAssign
  | matrixAssign
  | andAssign
  | orAssign
  | xorAssign
  | power
  | floorDivide
  | leftShift
  | rightShift
  | equal
  | notEqual
  | lessGreater
  | lessEqual
  | greaterEqual
  | arrow
  | walrus
  | openParen
  | closeParen
  | openBracket
  | closeBracket
  | openBrace
  | closeBrace
  | comma
  | colon
  | semicolon
  | dot
  | assign
  | plus
  | minus
  | star
  | slash
  | percent
  | at
  | ampersand
  | bar
  | caret
  | tilde
  | less
  | greater
deriving DecidableEq, Repr

namespace Mark

/-- Every mark, longer ones first, so that the first that fits is the longest that fits. -/
def all : List Mark := [
  .powerAssign, .floorAssign, .leftAssign, .rightAssign, .ellipsis, .plusAssign, .minusAssign,
  .timesAssign, .divideAssign, .moduloAssign, .matrixAssign, .andAssign, .orAssign, .xorAssign,
  .power, .floorDivide, .leftShift, .rightShift, .equal, .notEqual, .lessGreater, .lessEqual,
  .greaterEqual, .arrow, .walrus, .openParen, .closeParen, .openBracket, .closeBracket,
  .openBrace, .closeBrace, .comma, .colon, .semicolon, .dot, .assign, .plus, .minus, .star,
  .slash, .percent, .at, .ampersand, .bar, .caret, .tilde, .less, .greater]

def chars : Mark → List Char
  | .powerAssign => ['*', '*', '=']
  | .floorAssign => ['/', '/', '=']
  | .leftAssign => ['<', '<', '=']
  | .rightAssign => ['>', '>', '=']
  | .ellipsis => ['.', '.', '.']
  | .plusAssign => ['+', '=']
  | .minusAssign => ['-', '=']
  | .timesAssign => ['*', '=']
  | .divideAssign => ['/', '=']
  | .moduloAssign => ['%', '=']
  | .matrixAssign => ['@', '=']
  | .andAssign => ['&', '=']
  | .orAssign => ['|', '=']
  | .xorAssign => ['^', '=']
  | .power => ['*', '*']
  | .floorDivide => ['/', '/']
  | .leftShift => ['<', '<']
  | .rightShift => ['>', '>']
  | .equal => ['=', '=']
  | .notEqual => ['!', '=']
  | .lessGreater => ['<', '>']
  | .lessEqual => ['<', '=']
  | .greaterEqual => ['>', '=']
  | .arrow => ['-', '>']
  | .walrus => [':', '=']
  | .openParen => ['(']
  | .closeParen => [')']
  | .openBracket => ['[']
  | .closeBracket => [']']
  | .openBrace => ['\x7b']
  | .closeBrace => ['\x7d']
  | .comma => [',']
  | .colon => [':']
  | .semicolon => [';']
  | .dot => ['.']
  | .assign => ['=']
  | .plus => ['+']
  | .minus => ['-']
  | .star => ['*']
  | .slash => ['/']
  | .percent => ['%']
  | .at => ['@']
  | .ampersand => ['&']
  | .bar => ['|']
  | .caret => ['^']
  | .tilde => ['~']
  | .less => ['<']
  | .greater => ['>']

def ofText? (cs : List Char) : Option Mark := all.find? fun m => m.chars.isPrefixOf cs

def opens : Mark → Bool
  | .openParen | .openBracket | .openBrace => true
  | _ => false

def closes : Mark → Bool
  | .closeParen | .closeBracket | .closeBrace => true
  | _ => false

end Mark

/-- Words with a meaning of their own.  Some of them are ordinary names wherever that meaning
cannot be intended; the grammar says where. -/
inductive Keyword where
  | andWord
  | asWord
  | assertWord
  | asyncWord
  | awaitWord
  | breakWord
  | caseWord
  | classWord
  | continueWord
  | defWord
  | delWord
  | elifWord
  | elseWord
  | exceptWord
  | execWord
  | falseWord
  | finallyWord
  | forWord
  | fromWord
  | futureWord
  | globalWord
  | ifWord
  | importWord
  | inWord
  | isWord
  | lambdaWord
  | matchWord
  | noneWord
  | nonlocalWord
  | notWord
  | orWord
  | passWord
  | printWord
  | raiseWord
  | returnWord
  | trueWord
  | tryWord
  | typeWord
  | whileWord
  | withWord
  | yieldWord
deriving DecidableEq, Repr

namespace Keyword

def all : List Keyword := [
  .andWord, .asWord, .assertWord, .asyncWord, .awaitWord, .breakWord, .caseWord, .classWord,
  .continueWord, .defWord, .delWord, .elifWord, .elseWord, .exceptWord, .execWord, .falseWord,
  .finallyWord, .forWord, .fromWord, .futureWord, .globalWord, .ifWord, .importWord, .inWord,
  .isWord, .lambdaWord, .matchWord, .noneWord, .nonlocalWord, .notWord, .orWord, .passWord,
  .printWord, .raiseWord, .returnWord, .trueWord, .tryWord, .typeWord, .whileWord, .withWord,
  .yieldWord]

def chars : Keyword → List Char
  | .andWord => ['a', 'n', 'd']
  | .asWord => ['a', 's']
  | .assertWord => ['a', 's', 's', 'e', 'r', 't']
  | .asyncWord => ['a', 's', 'y', 'n', 'c']
  | .awaitWord => ['a', 'w', 'a', 'i', 't']
  | .breakWord => ['b', 'r', 'e', 'a', 'k']
  | .caseWord => ['c', 'a', 's', 'e']
  | .classWord => ['c', 'l', 'a', 's', 's']
  | .continueWord => ['c', 'o', 'n', 't', 'i', 'n', 'u', 'e']
  | .defWord => ['d', 'e', 'f']
  | .delWord => ['d', 'e', 'l']
  | .elifWord => ['e', 'l', 'i', 'f']
  | .elseWord => ['e', 'l', 's', 'e']
  | .exceptWord => ['e', 'x', 'c', 'e', 'p', 't']
  | .execWord => ['e', 'x', 'e', 'c']
  | .falseWord => ['F', 'a', 'l', 's', 'e']
  | .finallyWord => ['f', 'i', 'n', 'a', 'l', 'l', 'y']
  | .forWord => ['f', 'o', 'r']
  | .fromWord => ['f', 'r', 'o', 'm']
  | .futureWord => ['_', '_', 'f', 'u', 't', 'u', 'r', 'e', '_', '_']
  | .globalWord => ['g', 'l', 'o', 'b', 'a', 'l']
  | .ifWord => ['i', 'f']
  | .importWord => ['i', 'm', 'p', 'o', 'r', 't']
  | .inWord => ['i', 'n']
  | .isWord => ['i', 's']
  | .lambdaWord => ['l', 'a', 'm', 'b', 'd', 'a']
  | .matchWord => ['m', 'a', 't', 'c', 'h']
  | .noneWord => ['N', 'o', 'n', 'e']
  | .nonlocalWord => ['n', 'o', 'n', 'l', 'o', 'c', 'a', 'l']
  | .notWord => ['n', 'o', 't']
  | .orWord => ['o', 'r']
  | .passWord => ['p', 'a', 's', 's']
  | .printWord => ['p', 'r', 'i', 'n', 't']
  | .raiseWord => ['r', 'a', 'i', 's', 'e']
  | .returnWord => ['r', 'e', 't', 'u', 'r', 'n']
  | .trueWord => ['T', 'r', 'u', 'e']
  | .tryWord => ['t', 'r', 'y']
  | .typeWord => ['t', 'y', 'p', 'e']
  | .whileWord => ['w', 'h', 'i', 'l', 'e']
  | .withWord => ['w', 'i', 't', 'h']
  | .yieldWord => ['y', 'i', 'e', 'l', 'd']

def ofWord? (cs : List Char) : Option Keyword := all.find? fun k => k.chars == cs

end Keyword

/-- What a token is.  `strange` is a character that begins no token, or a quote that opens a string
which is never closed. -/
inductive TokenKind where
  | mark (m : Mark)
  | keyword (k : Keyword)
  | name
  | integer
  | float
  | stringStart
  | stringText
  | stringEnd
  | conversion
  | formatText
  | newline
  | indent
  | dedent
  | strange
deriving DecidableEq, Repr

/-- What may stand between two tokens and is kept: a comment, or a backslash that joins two
lines. -/
inductive TriviaKind where
  | comment
  | continuation
deriving DecidableEq, Repr

structure Trivia where
  kind : TriviaKind
  start : Pos
  stop : Pos
deriving DecidableEq, Repr

structure Token where
  kind : TokenKind
  start : Pos
  stop : Pos
  before : List Trivia
deriving DecidableEq, Repr

end AsyncSpread.Python
