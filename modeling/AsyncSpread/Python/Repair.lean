import AsyncSpread.Python.Grammar
import AsyncSpread.Python.Layout
import AsyncSpread.Python.Parser

/-!
Where a text stops being Python.

A text that cannot be read is repaired as cheaply as possible, and the flaw is where the repair is.
A repair leaves a row of tokens out, or puts one token in.  What is left out ends right before or
right behind the token that is in the way, or some tokens later, and begins there or with something
unfinished before it: a bracket, an operand, a statement.  While tokens are left out the ends of
lines do not count, so that a line may be continued by the next.
-/

namespace AsyncSpread.Python

inductive Missing where
  /-- Something to calculate with, such as a name. -/
  | operand
  | mark (m : Mark)
  | lineEnd
deriving DecidableEq, Repr

inductive Flaw where
  /-- Something that does not belong where it stands. -/
  | unexpected (place : Pos)
  | missing (what : Missing) (place : Pos)
deriving DecidableEq, Repr

namespace Flaw

def place : Flaw → Pos
  | .unexpected p => p
  | .missing _ p => p

/-- The kind of node that stands for a flaw.  Ends of lines have no nodes. -/
def kind? : Flaw → Option Kind
  | .unexpected _ => some .error
  | .missing .operand _ => some (.missing "identifier")
  | .missing (.mark m) _ => some (.missing (String.ofList m.chars))
  | .missing .lineEnd _ => none

def tree (f : Flaw) : Tree :=
  ⟨.mk .module f.place f.place (f.kind?.toList.map fun k => .mk k f.place f.place []), true⟩

def first (f g : Flaw) : Flaw := if g.place.byte < f.place.byte then g else f

end Flaw

/-! ## What is unfinished -/

/-- A part of a text that is not finished: where it begins in the row of tokens, and its last
token. -/
structure Part where
  start : Nat
  kind : TokenKind

def TokenKind.opens : TokenKind → Bool
  | .mark m => m.opens
  | _ => false

def TokenKind.closes : TokenKind → Bool
  | .mark m => m.closes
  | _ => false

def TokenKind.isLayout : TokenKind → Bool
  | .newline | .indent | .dedent => true
  | _ => false

/-- The clauses that continue a compound statement behind a block. -/
def TokenKind.continuesStatement : TokenKind → Bool
  | .keyword .elifWord | .keyword .elseWord | .keyword .exceptWord | .keyword .finallyWord => true
  | _ => false

def closeGroup : List Part → List Part
  | [] => []
  | p :: ps => if p.kind.opens then { p with kind := .name } :: ps else closeGroup ps

/-- The parts up to the beginning of the block that the last one stands in. -/
def enclosing (ps : List Part) : List Part := ps.dropWhile fun p => p.kind ≠ .indent

/-- What is unfinished when the next token comes: a bracket, a statement or a block may have
ended. -/
def settle (next : TokenKind) : List Part → List Part
  | [] => []
  | p :: ps =>
    if p.kind.closes then closeGroup ps
    else if p.kind = .newline then enclosing ps
    else if p.kind = .dedent then
      let header := (enclosing ps).drop 1
      if next.continuesStatement then header else enclosing header
    else p :: ps

def unfinished (ts : List Token) : List Part :=
  ts.zipIdx.foldl (fun ps (t, i) => ⟨i, t.kind⟩ :: settle t.kind ps) []

/-! ## Repairs -/

/-- A repair: the flaw it mends, what it costs, and the tokens after it. -/
structure Repair where
  flaw : Flaw
  cost : Nat
  tokens : List Token
  /-- Whether the text is a module after the repair. -/
  mends : Bool

namespace Repair

/-- What any repair costs; one that does not mend the text asks for another. -/
def base : Nat := 500

/-- What it costs to leave out the text between two places, in so many parts. -/
def omissionCost (start stop : Pos) (parts : Nat) : Nat :=
  base + 100 * parts + (stop.byte - start.byte) + 30 * (stop.row - start.row)

def insertionCost : Nat := base + 110

def make (flaw : Flaw) (cost : Nat) (tokens : List Token) : Repair :=
  let mends := isModule tokens
  ⟨flaw, if mends then cost else cost + base + 100, tokens, mends⟩

/-- Of two repairs the cheaper one, and of two that cost the same the second. -/
def better (r : Option Repair) (s : Repair) : Option Repair :=
  match r with
  | some r => if r.cost < s.cost then some r else some s
  | none => some s

end Repair

/-- The tokens with which a reading may resume, and all that follows; at the end, nothing. -/
def resumptions : List Token → List (Option Token × List Token)
  | [] => [(none, [])]
  | t :: ts => if t.kind = .newline then resumptions ts else (some t, t :: ts) :: resumptions ts

/-- Whether a reading of the tokens before may go on with a token, or end. -/
def mayResume (before : List Token) : Option Token → Bool
  | some t => beginsModule (before ++ [t])
  | none => isModule before

/-- The unfinished parts that may be left out, each as the number of parts left out, the tokens
before them and their first token.  A repair does not go back farther than sixteen parts. -/
def omissions (before : List Token) : List (Nat × List Token × Option Token) :=
  let places := before.length :: (unfinished before).map Part.start
  (places.take 17).zipIdx.map fun (i, n) => (n, before.take i, before[i]?)

/-- Tries to resume with each of the tokens in turn, leaving out those in front of it.  Tokens that
would cost more than the best repair so far are not tried.  `stop` is where what is left out
stops. -/
def resume (places : List (Nat × List Token × Option Token)) (first : Pos) (best : Option Repair)
    (skipped : Nat) (stop : Pos) : List (Option Token × List Token) → Option Repair
  | [] => best
  | (next, rest) :: later =>
    if best.any fun r => r.cost < Repair.base + 100 * skipped then best
    else
      let fitting := places.find? fun (n, before, _) => 0 < n + skipped && mayResume before next
      let best := match fitting with
        | none => best
        | some (n, before, head) =>
          let start := (head.map Token.start).getD first
          Repair.better best (.make (.unexpected start)
            (Repair.omissionCost start stop (n + skipped)) (before ++ rest))
      resume places first best (skipped + 1) ((next.map Token.stop).getD stop) later

/-- What may be put in before a token, each with a token of its kind that only fits where it is
wanted. -/
def insertable : List (Missing × TokenKind × TokenKind) := [
  (.operand, .integer, .name),
  (.mark .closeParen, .mark .closeParen, .mark .closeParen),
  (.mark .closeBracket, .mark .closeBracket, .mark .closeBracket),
  (.mark .closeBrace, .mark .closeBrace, .mark .closeBrace),
  (.lineEnd, .newline, .newline)]

/-- Puts a token in that finishes something, so that the reading may go on. -/
def insertion? (before : List Token) (place : Pos) (next : Token)
    (rest : List Token) : Option Repair :=
  let token (k : TokenKind) : Token := ⟨k, place, place, []⟩
  (insertable.find? fun (_, k, _) => beginsModule (before ++ [token k, next])).map
      fun (what, _, k) =>
    .make (.missing what place) Repair.insertionCost (before ++ token k :: rest)

def repair? (ts : List Token) : Option Repair :=
  let stuck := ts.length - (readModule ts).reach
  let before := ts.take stuck
  let place := (before.getLast?.map Token.stop).getD .start
  let left := ts.drop stuck
  let ahead :=
    if (unfinished before).any (·.kind.opens) && left.all (·.kind.isLayout) then [(none, [])]
    else resumptions left
  let first := match ahead with
    | (some t, _) :: _ => t.start
    | _ => place
  let inserted := match ahead with
    | (some t, rest) :: _ => insertion? before place t rest
    | _ => none
  resume (omissions before) first inserted 0 place ahead

/-- The first flaw of tokens that are no module, found by repairing them at most so many times. -/
def flawWithin : Nat → List Token → Flaw
  | 0, ts => .unexpected ((ts.head?.map Token.start).getD .start)
  | n + 1, ts =>
    match repair? ts with
    | none => .unexpected ((ts.head?.map Token.start).getD .start)
    | some r => if r.mends then r.flaw else r.flaw.first (flawWithin n r.tokens)

def firstFlaw (ts : List Token) : Flaw := flawWithin 32 ts

end AsyncSpread.Python
