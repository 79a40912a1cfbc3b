import AsyncSpread.Calls.Graph
import AsyncSpread.Source.Definition

/-!
Building a call graph from raw calls.

A raw call becomes a call of the graph when the definitions of both its functions are found and have
names.  What becomes of each raw call is counted.
-/

namespace AsyncSpread.Calls

open Trace

inductive BuildFault where
  | profile (why : Profile.Fault)
  | graph (why : Calls.Fault)
deriving DecidableEq, Repr

abbrev NameLookup := Path → Nat → Option String

structure Tally where
  rawCalls : Nat
  added : Nat
  repeated : Nat
  /-- Raw calls of functions whose definition was not found. -/
  unresolvedLines : Nat
  /-- Raw calls of functions without a name. -/
  unresolvedNames : Nat
  /-- Raw calls of functions whose source could not be read. -/
  unreadable : Nat
deriving DecidableEq, Repr

namespace Tally

def zero : Tally := ⟨0, 0, 0, 0, 0, 0⟩

def skipped (t : Tally) : Nat := t.unresolvedLines + t.unresolvedNames + t.unreadable

end Tally

structure Builder where
  sources : Source.Cache
  graph : CallGraph
  tally : Tally

namespace Builder

def start (sources : Source.Cache) : Builder := ⟨sources, ∅, .zero⟩

/-- Adds a call between two named functions. -/
def link (b : Builder) (raw : RawCall) (caller callee : String) :
    Builder × Except BuildFault Bool :=
  let (source, g) := b.graph.addFunction caller raw.caller.file raw.caller.line
  let (target, g) := g.addFunction callee raw.callee.file raw.callee.line
  match g.addCall ⟨source, target, raw.literal, raw.callLine⟩ with
  | .error e => ({ b with graph := g }, .error (.graph e))
  | .ok (true, g) =>
    ({ b with graph := g, tally := { b.tally with added := b.tally.added + 1 } }, .ok true)
  | .ok (false, g) =>
    ({ b with graph := g, tally := { b.tally with repeated := b.tally.repeated + 1 } }, .ok false)

/-- Adds a raw call, and tells whether it made a new call of the graph. -/
def add (disk : Disk) (lookup : NameLookup) (b : Builder) (raw : RawCall) :
    Builder × Except BuildFault Bool :=
  let (sources, resolved) := Source.resolveCall disk raw b.sources
  let t := { b.tally with rawCalls := b.tally.rawCalls + 1 }
  let b := { b with sources := sources, tally := t }
  match resolved with
  | .error e =>
    if e.isRecoverable then ({ b with tally := { t with unreadable := t.unreadable + 1 } },
      .ok false)
    else (b, .error (.profile e))
  | .ok (_, false) =>
    ({ b with tally := { t with unresolvedLines := t.unresolvedLines + 1 } }, .ok false)
  | .ok (raw, true) =>
    match lookup raw.caller.file raw.caller.line, lookup raw.callee.file raw.callee.line with
    | some caller, some callee => b.link raw caller callee
    | _, _ => ({ b with tally := { t with unresolvedNames := t.unresolvedNames + 1 } }, .ok false)

def addAll (disk : Disk) (lookup : NameLookup) (b : Builder) :
    List RawCall → Except BuildFault Builder
  | [] => .ok b
  | raw :: rest =>
    match b.add disk lookup raw with
    | (_, .error e) => .error e
    | (b, .ok _) => addAll disk lookup b rest

end Builder

end AsyncSpread.Calls
