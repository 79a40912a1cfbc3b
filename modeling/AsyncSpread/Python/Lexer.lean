import AsyncSpread.Python.Token
import AsyncSpread.Text.NameChar

/-!
Cutting a text into pieces: tokens, comments, continued lines, and the ends of lines that are not
inside a bracket.  What the ends of lines mean is decided by `Python.Layout`.

A formatted string holds ordinary code between braces, so the scan keeps a stack of frames that
says in which kind of text it stands.
-/

namespace AsyncSpread.Python

/-! ## Numbers and strings -/

/-- Digits with single underscores after them: `1`, `1_000`, `1_`. -/
def decimalRun : Bool → List Char → Nat
  | afterDigit, c :: cs =>
    if c.isDigit then 1 + decimalRun true cs
    else if c == '_' && afterDigit then 1 + decimalRun false cs
    else 0
  | _, [] => 0

/-- Digits of another base, each group with at most one underscore before it. -/
def basedRun (isDigit : Char → Bool) : List Char → Nat
  | [] => 0
  | c :: cs =>
    if isDigit c then 1 + basedRun isDigit cs
    else match cs with
      | d :: _ => if c == '_' && isDigit d then 1 + basedRun isDigit cs else 0
      | [] => 0

def isHexDigit (c : Char) : Bool :=
  c.isDigit || ('a' ≤ c && c ≤ 'f') || ('A' ≤ c && c ≤ 'F')

def exponentRun : List Char → Nat
  | e :: s :: cs =>
    if e == 'e' || e == 'E' then
      if s == '+' || s == '-' then
        match decimalRun false cs with
        | 0 => 0
        | n => 2 + n
      else match decimalRun false (s :: cs) with
        | 0 => 0
        | n => 1 + n
    else 0
  | _ => 0

/-- One letter of the given ones at the head of the text, or nothing. -/
def suffixRun (letters : List Char) : List Char → Nat
  | c :: _ => if letters.contains c then 1 else 0
  | [] => 0

/-- A number written in base 16, 8 or 2; without a digit after the letter it is none. -/
def basedNumberRun (letter : Char) (cs : List Char) : Nat :=
  let digits :=
    if letter == 'x' || letter == 'X' then basedRun isHexDigit cs
    else if letter == 'o' || letter == 'O' then basedRun (fun c => '0' ≤ c && c ≤ '7') cs
    else if letter == 'b' || letter == 'B' then basedRun (fun c => c == '0' || c == '1') cs
    else 0
  if digits == 0 then 0 else 2 + digits + suffixRun ['l', 'L'] (cs.drop digits)

/-- The length of the number at the head of the text, and whether it is a fraction. -/
def numberRun (cs : List Char) : Nat × TokenKind :=
  let based := match cs with
    | '0' :: letter :: rest => basedNumberRun letter rest
    | _ => 0
  if based ≠ 0 then (based, .integer) else
  let whole := decimalRun false cs
  match cs.drop whole with
  | '.' :: rest =>
    let fraction := decimalRun false rest
    let power := exponentRun (rest.drop fraction)
    let n := whole + 1 + fraction + power
    (n + suffixRun ['j', 'J'] (cs.drop n), .float)
  | rest =>
    match exponentRun rest with
    | 0 => (whole + suffixRun ['l', 'L', 'j', 'J'] rest, .integer)
    | power =>
      let n := whole + power
      (n + suffixRun ['j', 'J'] (cs.drop n), .float)

structure Quote where
  mark : Char
  triple : Bool
  raw : Bool
  bytes : Bool
  formatted : Bool
deriving DecidableEq, Repr

/-- The string opening at the head of a text: its letters, its quotes and what follows. -/
def openQuote? (cs : List Char) : Option (Quote × Nat) :=
  let letters := cs.takeWhile fun c => ['f', 'F', 'r', 'R', 'b', 'B', 'u', 'U'].contains c
  let has (a b : Char) := letters.contains a || letters.contains b
  match cs.drop letters.length with
  | q :: rest =>
    if q == '"' || q == '\'' then
      let triple := [q, q].isPrefixOf rest
      some (⟨q, triple, has 'r' 'R', has 'b' 'B', has 'f' 'F'⟩,
        letters.length + if triple then 3 else 1)
    else none
  | [] => none

/-- How many characters after a backslash belong to its escape. -/
def escapeRun : List Char → Nat
  | [] => 0
  | c :: cs =>
    if c == 'u' then if (cs.take 4).length == 4 && (cs.take 4).all isHexDigit then 5 else 0
    else if c == 'U' then if (cs.take 8).length == 8 && (cs.take 8).all isHexDigit then 9 else 0
    else if c == 'x' then if (cs.take 2).length == 2 && (cs.take 2).all isHexDigit then 3 else 0
    else if c.isDigit then 1 + ((cs.take 2).takeWhile Char.isDigit).length
    else if c == '\r' then if cs.head? == some '\n' then 2 else 0
    else if c == 'N' then
      match cs with
      | '\x7b' :: rest =>
        let name := rest.takeWhile (· ≠ '\x7d')
        if name.length ≠ 0 && (rest.drop name.length).head? == some '\x7d' then name.length + 3
        else 0
      | _ => 0
    else if ['\'', '"', 'a', 'b', 'f', 'r', 'n', 't', 'v', '\\', '\n'].contains c then 1
    else 0

/-- How many characters a backslash takes with it in a raw string: a quote or backslash, and a line
end behind it. -/
def rawRun (mark : Char) (cs : List Char) : Nat :=
  let n := match cs with
    | c :: _ => if c == mark || c == '\\' then 1 else 0
    | [] => 0
  match cs.drop n with
  | '\r' :: '\n' :: _ => n + 2
  | '\r' :: _ => n + 1
  | '\n' :: _ => n + 1
  | _ => n

inductive TextStop where
  | closed
  | field
  | broken
deriving DecidableEq, Repr

/-- The text of a string up to its closing quote, a replacement field, or the fault that leaves it
open.  `solid` says that the current stretch holds a character already: a line may end in a string
on one line only right behind its quote, an escape or a field.  `skip` counts characters that an
escape has taken.  What comes back is the text, the reason to stop, and the rest behind a closing
quote. -/
def textRun (q : Quote) : Bool → Nat → List Char → List Char × TextStop × List Char
  | _, _, [] => ([], .broken, [])
  | solid, skip + 1, c :: cs =>
    let (text, stop, rest) := textRun q solid skip cs
    (c :: text, stop, rest)
  | solid, 0, c :: cs =>
    let more (solid : Bool) (skip : Nat) :=
      let (text, stop, rest) := textRun q solid skip cs
      (c :: text, stop, rest)
    if c == '\\' then
      if q.raw then more true (rawRun q.mark cs)
      else if q.bytes && (cs.take 1).any (['N', 'u', 'U'].contains ·) then more true 1
      else more false (escapeRun cs)
    else if c == q.mark then
      if !q.triple then ([], .closed, cs)
      else if [c, c].isPrefixOf cs then ([], .closed, cs.drop 2)
      else more false (if cs.head? == some c then 1 else 0)
    else if c == '\n' && solid && !q.triple then ([], .broken, c :: cs)
    else if q.formatted && (c == '\x7b' || c == '\x7d') then
      if cs.head? == some c then more false 1
      else ([], if c == '\x7b' then .field else .broken, c :: cs)
    else more true 0

/-! ## The scan -/

/-- The kinds of text that nest. -/
inductive Frame where
  /-- Between brackets. -/
  | bracket
  /-- In a replacement field.  A colon opens its format, unless one of the `lambdas` begun here
  is still waiting for its own. -/
  | field (lambdas : Nat)
  /-- In the text of a string. -/
  | text (q : Quote)
  /-- In the format of a replacement field. -/
  | format
deriving DecidableEq, Repr

inductive PieceKind where
  | token (k : TokenKind)
  | trivia (k : TriviaKind)
  | lineEnd
deriving DecidableEq, Repr

/-- A piece of a text.  `indent` is the width of the white space at the head of its line, and says
so only for the first piece of a line. -/
structure Piece where
  kind : PieceKind
  start : Pos
  stop : Pos
  indent : Nat
deriving DecidableEq, Repr

/-- Where a scan stands.  `atHead` holds while only white space has been seen on the line. -/
structure Scan where
  rest : List Char
  pos : Pos
  frames : List Frame
  indent : Nat
  atHead : Bool

namespace Scan

def ofText (cs : List Char) : Scan := ⟨cs, .start, [], 0, true⟩

def skip (s : Scan) (n : Nat) : Scan :=
  { s with rest := s.rest.drop n, pos := s.pos.past (s.rest.take n) }

def cut (s : Scan) (kind : PieceKind) (n : Nat) : Piece × Scan :=
  let s' := s.skip n
  (⟨kind, s.pos, s'.pos, s.indent⟩, s')

def token (s : Scan) (kind : TokenKind) (n : Nat) : List Piece × Scan :=
  let (p, s') := s.cut (.token kind) n
  ([p], { s' with atHead := false })

/-- White space at the head of a line counts as its indentation: one for a space and eight for a
tab, starting again after a carriage return or form feed. -/
def blank (s : Scan) (c : Char) : Scan :=
  let s' := s.skip 1
  if c == '\n' then { s' with indent := 0, atHead := true }
  else if !s.atHead then s'
  else if c == ' ' then { s' with indent := s.indent + 1 }
  else if c == '\t' then { s' with indent := s.indent + 8 }
  else if c == '\r' || c == '\x0c' then { s' with indent := 0 }
  else { s' with atHead := false }

/-- White space between tokens, the byte-order mark and two invisible joiners among it. -/
def isBlank (c : Char) : Bool :=
  [' ', '\t', '\n', '\x0b', '\x0c', '\r', '\ufeff', '\u2060', '\u200b'].contains c

/-- What a mark does to the frames: brackets nest, a closing brace ends a field, and a colon in a
field opens its format. -/
def framesAfter (m : Mark) (frames : List Frame) : List Frame :=
  match m, frames with
  | .closeBrace, .field _ :: rest => rest
  | .colon, .field 0 :: rest => .format :: .field 0 :: rest
  | .colon, .field (n + 1) :: rest => .field n :: rest
  | m, .bracket :: rest => if m.opens then .bracket :: .bracket :: rest
      else if m.closes then rest else .bracket :: rest
  | m, frames => if m.opens then .bracket :: frames else frames

/-- Opens a string.  A quote that is never closed is no string, and the scan goes on behind it. -/
def openString (s : Scan) (q : Quote) (n : Nat) : List Piece × Scan :=
  let (_, stop, _) := textRun q false 0 (s.rest.drop n)
  if stop = .broken then s.token .strange n
  else
    let (ps, s') := s.token .stringStart n
    (ps, { s' with frames := .text q :: s'.frames })

def word (s : Scan) (cs : List Char) : List Piece × Scan :=
  match Keyword.ofWord? cs with
  | some k =>
    let (ps, s') := s.token (.keyword k) cs.length
    match k, s.frames with
    | .lambdaWord, .field n :: rest => (ps, { s' with frames := .field (n + 1) :: rest })
    | _, _ => (ps, s')
  | none => s.token .name cs.length

/-- How many characters of a line end stand at the head of a text. -/
def lineEndRun : List Char → Option Nat
  | [] => some 0
  | '\n' :: _ => some 1
  | '\r' :: '\n' :: _ => some 2
  | '\x00' :: _ => some 1
  | _ => none

def code (s : Scan) (c : Char) (cs : List Char) : List Piece × Scan :=
  if c == '\n' && s.frames.isEmpty then
    let (p, _) := s.cut .lineEnd 1
    ([p], s.blank c)
  else if isBlank c then ([], s.blank c)
  else if c == '#' then
    let (p, s') := s.cut (.trivia .comment) ((c :: cs).takeWhile (· ≠ '\n')).length
    ([p], { s' with atHead := false })
  else if c == '\\' then
    match lineEndRun cs with
    | some n =>
      let (p, s') := s.cut (.trivia .continuation) (n + 1)
      ([p], s')
    | none => s.token .strange 1
  else match openQuote? (c :: cs) with
  | some (q, n) => s.openString q n
  | none =>
    if Text.beginsName c then s.word (c :: cs.takeWhile Text.continuesName)
    else if c.isDigit || (c == '.' && (cs.take 1).any Char.isDigit) then
      let (n, kind) := numberRun (c :: cs)
      s.token kind n
    else if c == '!' && (cs.take 1).any (fun d => 'a' ≤ d && d ≤ 'z')
        && (s.frames.head?.any fun f => f matches .field _) then
      s.token .conversion 2
    else match Mark.ofText? (c :: cs) with
    | some m =>
      let (ps, s') := s.token (.mark m) m.chars.length
      (ps, { s' with frames := framesAfter m s'.frames })
    | none => s.token .strange 1

def stringText (s : Scan) (q : Quote) (outer : List Frame) : List Piece × Scan :=
  let (text, stop, _) := textRun q false 0 s.rest
  let (ps, s) := if text.isEmpty then ([], s) else s.token .stringText text.length
  match stop with
  | .closed =>
    let (qs, s) := s.token .stringEnd (if q.triple then 3 else 1)
    (ps ++ qs, { s with frames := outer })
  | .field =>
    let (qs, s) := s.token (.mark .openBrace) 1
    (ps ++ qs, { s with frames := .field 0 :: s.frames })
  | .broken =>
    let (qs, s) := s.token .strange 0
    (ps ++ qs, { s with frames := outer })

/-- The format of a field up to its end, a field of its own, or the fault that leaves it open. -/
def formatText (s : Scan) (outer : List Frame) : List Piece × Scan :=
  let text := s.rest.takeWhile fun c => c ≠ '\x7b' && c ≠ '\x7d' && c ≠ '\n'
  let (ps, s) := if text.isEmpty then ([], s) else s.token .formatText text.length
  match s.rest with
  | '\x7b' :: _ =>
    let (qs, s) := s.token (.mark .openBrace) 1
    (ps ++ qs, { s with frames := .field 0 :: s.frames })
  | '\x7d' :: _ => (ps, { s with frames := outer })
  | _ =>
    let (qs, s) := s.token .strange 0
    (ps ++ qs, { s with frames := outer })

def step (s : Scan) : Option (List Piece × Scan) :=
  match s.frames, s.rest with
  | .text q :: outer, _ => some (s.stringText q outer)
  | .format :: outer, _ => some (s.formatText outer)
  | _, c :: cs => some (s.code c cs)
  | _, [] => none

def pieces : Nat → Scan → List Piece
  | 0, _ => []
  | n + 1, s =>
    match s.step with
    | none => []
    | some (ps, s') => ps ++ pieces n s'

end Scan

/-- Cuts a text into pieces.  A step that takes no character closes a frame, and a frame is opened
by a character of its own, so twice the length is enough. -/
def piecesOf (cs : List Char) : List Piece := (Scan.ofText cs).pieces (2 * cs.length + 2)

end AsyncSpread.Python
