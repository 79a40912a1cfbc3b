import AsyncSpread.Text.Quoted
import AsyncSpread.Trace.RawCall

/-!
What is wrong with a trace.
-/

namespace AsyncSpread.Trace

inductive Fault where
  /-- A record that cannot be read or comes too early; lines count from 1. -/
  | malformed (lineNo : Nat) (text : String)
  | functionId (id : String)
  /-- A line behind a call record that does not begin with a line number. -/
  | callSite (lineNo : Nat) (text : String)
deriving DecidableEq, Repr

def Fault.message : Fault → String
  | .malformed lineNo text =>
    "Malformed record at line " ++ toString lineNo ++ ": " ++ Text.quoted text
  | .functionId id => "Invalid function id " ++ Text.quoted id ++ ": expected \x60name:line\x60"
  | .callSite lineNo text =>
    "Invalid call-site record at line " ++ toString lineNo ++ ": " ++ Text.quoted text

def splitFunctionId (id : String) : Except Fault (String × Nat) :=
  match splitFunctionId? id with
  | some parts => .ok parts
  | none => .error (.functionId id)

def Frame.of (file : Path) (id : String) : Except Fault Frame :=
  match Frame.of? file id with
  | some f => .ok f
  | none => .error (.functionId id)

def RawCall.of (callerFile : Path) (callerId : String) (calleeFile : Path) (calleeId : String)
    (callLine : Nat) : Except Fault RawCall := do
  let caller ← Frame.of callerFile callerId
  let callee ← Frame.of calleeFile calleeId
  return ⟨caller, callee, callLine⟩

end AsyncSpread.Trace
