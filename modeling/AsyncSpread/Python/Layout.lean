import AsyncSpread.Python.Lexer

/-!
Laying out lines: which line ends matter, and where blocks begin and end.

A line end closes a statement.  Behind a colon, a deeper line opens a block instead.  A block ends
before the first line that is indented less, together with the comments in front of that line,
unless such a comment is itself indented into the block.  `newline`, `indent` and `dedent` take no
text: they stand right behind the token or comment that precedes them.
-/

namespace AsyncSpread.Python

/-- Something between two tokens. -/
inductive Gap where
  | trivia (t : Trivia) (indent : Nat)
  | lineEnd
deriving DecidableEq, Repr

namespace Gap

def trivia? : Gap → Option Trivia
  | .trivia t _ => some t
  | .lineEnd => none

def isComment : Gap → Bool
  | .trivia t _ => t.kind = .comment
  | .lineEnd => false

def isLineEnd : Gap → Bool
  | .lineEnd => true
  | .trivia .. => false

end Gap

/-- The comment that shares the last line of a statement, with what stands before it; then the rest.
Without such a comment the line ends at once. -/
def lastLine (gap : List Gap) : List Gap × List Gap :=
  let line := gap.takeWhile fun g => !g.isLineEnd
  if line.any Gap.isComment then (line, gap.drop line.length) else ([], gap)

/-- Where the last of some trivia stops, or the given place. -/
def stopOf (p : Pos) : List Trivia → Pos
  | [] => p
  | [t] => t.stop
  | _ :: ts => stopOf p ts

/-- Whether the first comment of a gap is indented at least so far. -/
def firstCommentWithin (indent : Nat) : List Gap → Bool
  | [] => false
  | .trivia t n :: gap => if t.kind = .comment then indent ≤ n else firstCommentWithin indent gap
  | .lineEnd :: gap => firstCommentWithin indent gap

/-- The part of a gap that still belongs to the block of the given indentation, and the rest. -/
def withinBlock (indent : Nat) : List Gap → List Trivia × List Gap
  | [] => ([], [])
  | g :: gap =>
    if firstCommentWithin indent (g :: gap) then
      let (ts, rest) := withinBlock indent gap
      (g.trivia?.toList ++ ts, rest)
    else ([], g :: gap)

def layoutToken (kind : TokenKind) (p : Pos) (before : List Trivia) : Token :=
  ⟨kind, stopOf p before, stopOf p before, before⟩

/-- Ends the blocks that are indented more than the next line.  `blocks` are the indentations of the
open blocks, innermost first. -/
def closeBlocks (indent : Nat) : List Nat → Pos → List Gap → List Token × List Nat × List Gap
  | [], _, gap => ([], [], gap)
  | b :: blocks, p, gap =>
    if indent < b then
      let (inside, rest) := withinBlock b gap
      let t := layoutToken .dedent p inside
      let (ts, open_, rest) := closeBlocks indent blocks t.stop rest
      (t :: ts, open_, rest)
    else ([], b :: blocks, gap)

/-- What the layout knows between two tokens: the open blocks, the last token if there was one, and
the gap since then. -/
structure LineState where
  blocks : List Nat
  last : Option (TokenKind × Pos)
  gap : List Gap

namespace LineState

/-- The layout tokens in front of a line that is indented so far, the state after them, and the
trivia left for its first token.  `ends` is for the end of the text, which lies in no block. -/
def breakLine (s : LineState) (indent : Nat) (ends : Bool) : List Token × List Nat × List Trivia :=
  match s.last with
  | none => ([], s.blocks, s.gap.filterMap Gap.trivia?)
  | some (kind, p) =>
    let (line, gap) := lastLine s.gap
    let before := line.filterMap Gap.trivia?
    if !ends && kind = .mark .colon && (s.blocks.headD 0) < indent then
      ([layoutToken .indent p before], indent :: s.blocks, gap.filterMap Gap.trivia?)
    else
      let t := layoutToken .newline p before
      let (ts, blocks, gap) := closeBlocks indent s.blocks t.stop gap
      (t :: ts, blocks, gap.filterMap Gap.trivia?)

end LineState

/-- The tokens of a text with its lines laid out, and the trivia behind the last of them. -/
def layout (s : LineState) : List Piece → List Token × List Trivia
  | [] =>
    let (ts, _, after) := s.breakLine 0 true
    (ts, after)
  | p :: ps =>
    match p.kind with
    | .lineEnd => layout { s with gap := s.gap ++ [.lineEnd] } ps
    | .trivia k => layout { s with gap := s.gap ++ [.trivia ⟨k, p.start, p.stop⟩ p.indent] } ps
    | .token k =>
      let (ts, blocks, before) :=
        if s.gap.any Gap.isLineEnd then s.breakLine p.indent false
        else ([], s.blocks, s.gap.filterMap Gap.trivia?)
      let (rest, after) := layout ⟨blocks, some (k, p.stop), []⟩ ps
      (ts ++ ⟨k, p.start, p.stop, before⟩ :: rest, after)

def tokensOf (cs : List Char) : List Token × List Trivia :=
  layout ⟨[], none, []⟩ (piecesOf cs)

end AsyncSpread.Python
