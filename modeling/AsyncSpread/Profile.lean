import AsyncSpread.Source.Cache
import AsyncSpread.Trace.Fault

/-!
What is wrong with a profile: with its trace, or with a source that the trace names.
-/

namespace AsyncSpread.Profile

inductive Fault where
  | trace (why : Trace.Fault)
  | source (why : Source.Unreadable)
deriving DecidableEq, Repr

def Fault.message : Fault → String
  | .trace why => why.message
  | .source why => why.message

def Fault.isRecoverable : Fault → Bool
  | .trace _ => false
  | .source _ => true

end AsyncSpread.Profile
