import AsyncSpread.Sorting
import AsyncSpread.Text.Slice

/-!
Insertions into a text.  Nothing is ever deleted or replaced, so what is not inserted survives as it
was.
-/

namespace AsyncSpread.Rewrite

inductive EditKind where
  /-- The parenthesis that closes an awaited call. -/
  | close
  /-- The line that imports the marker. -/
  | importLine
  /-- A line with the marker. -/
  | decorator
  /-- The word that makes a function asynchronous. -/
  | async
  /-- The word that awaits a call, perhaps with a parenthesis before it. -/
  | await
deriving DecidableEq, Repr

def EditKind.rank : EditKind → Nat
  | .close => 0
  | .importLine => 1
  | .decorator => 2
  | .async => 3
  | .await => 4

/-- A text to insert at a byte offset of the unchanged source.  `depth` is the depth of the node it
is for. -/
structure Edit where
  offset : Nat
  kind : EditKind
  depth : Nat
  text : List Char
deriving DecidableEq, Repr

namespace Edit

/-- A depth is compared as a signed number of 64 bits. -/
def signed (n : Int) : Int := n.bmod 0x10000000000000000

/-- At one offset outer nodes open first and inner nodes close first. -/
def level (e : Edit) : Int :=
  if e.kind = .close then signed (-signed e.depth) else signed e.depth

/-- Whether one insertion is written before another. -/
def precedes (a b : Edit) : Bool :=
  a.offset < b.offset ||
    (a.offset == b.offset &&
      (a.kind.rank < b.kind.rank || (a.kind.rank == b.kind.rank && a.level < b.level)))

/-- Writes insertions that are in order into the text from a byte offset on. -/
def insertAll (source : List Char) (at_ : Nat) : List Edit → List Char
  | [] => source
  | e :: es =>
    let before := Text.takeBytes (e.offset - at_) source
    before ++ e.text
      ++ insertAll (Text.dropBytes (e.offset - at_) source) (at_ + Text.byteLength before) es

/-- Writes insertions into a text.  An offset behind the end counts as the end. -/
def apply (source : List Char) (edits : List Edit) : List Char :=
  insertAll source 0 (sortStable precedes edits)

end Edit

end AsyncSpread.Rewrite
