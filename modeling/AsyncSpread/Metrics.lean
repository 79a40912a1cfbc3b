import AsyncSpread.Rewrite.Module

/-!
How many files a run took, with what success, and how long.  The counters are 64-bit words; a run's
time is kept in nanoseconds.
-/

namespace AsyncSpread

structure Metrics where
  attempted : UInt64
  succeeded : UInt64
  failed : UInt64
  changed : UInt64
  madeAsync : UInt64
  awaited : UInt64
  marked : UInt64
  importsAdded : UInt64
  nanos : Nat
deriving DecidableEq, Repr

namespace Metrics

def zero : Metrics := ⟨0, 0, 0, 0, 0, 0, 0, 0, 0⟩

instance : Inhabited Metrics := ⟨zero⟩

def ofSuccess (r : Rewrite.Rewritten) (nanos : Nat) : Metrics where
  attempted := 1
  succeeded := 1
  failed := 0
  changed := if r.isChanged then 1 else 0
  madeAsync := .ofNat r.madeAsync
  awaited := .ofNat r.awaited
  marked := .ofNat r.marked
  importsAdded := if r.importAdded then 1 else 0
  nanos := nanos

def ofFailure (nanos : Nat) : Metrics := { zero with attempted := 1, failed := 1, nanos := nanos }

def merge (m n : Metrics) : Metrics where
  attempted := m.attempted + n.attempted
  succeeded := m.succeeded + n.succeeded
  failed := m.failed + n.failed
  changed := m.changed + n.changed
  madeAsync := m.madeAsync + n.madeAsync
  awaited := m.awaited + n.awaited
  marked := m.marked + n.marked
  importsAdded := m.importsAdded + n.importsAdded
  nanos := m.nanos + n.nanos

def addSuccess (m : Metrics) (r : Rewrite.Rewritten) (nanos : Nat) : Metrics :=
  m.merge (ofSuccess r nanos)

def addFailure (m : Metrics) (nanos : Nat) : Metrics := m.merge (ofFailure nanos)

def successRate (m : Metrics) : Float :=
  if m.attempted = 0 then 0 else m.succeeded.toFloat / m.attempted.toFloat

/-- The time per file, 0 for no files.  The time is divided by a 32-bit word, the lower half of the
count; there is no answer if that half is 0 and the count is not. -/
def averageNanos? (m : Metrics) : Option Nat :=
  if m.attempted = 0 then some 0
  else
    let divisor := m.attempted.toUInt32.toNat
    if divisor = 0 then none else some (m.nanos / divisor)

def millis (m : Metrics) : Nat := m.nanos / 1000000

end Metrics

end AsyncSpread
