import AsyncSpread.Text.Line
import AsyncSpread.Trace.Fault
import AsyncSpread.Trace.Record

/-!
Reading the calls of a trace.

The records before a call say who calls whom: each stands until the next of its key.  The line
behind a call record begins with the line of the call.  All other lines are passed over.
-/

namespace AsyncSpread.Trace

/-- Which calls are wanted, by the file of the caller and the file of the callee. -/
structure FileFilter where
  caller : Path → Bool
  callee : Path → Bool

namespace FileFilter

def all : FileFilter := ⟨fun _ => true, fun _ => true⟩

end FileFilter

/-- The records that stand, and what ids stand for. -/
structure Standing where
  callerFile : Option Path
  callerId : Option String
  calleeFile : Option Path
  calleeId : Option String
  files : NameTable
  functions : NameTable

namespace Standing

def start : Standing := ⟨none, none, none, none, [], []⟩

/-- The file of the callee, which is that of the caller unless another is given. -/
def calleeFile? (s : Standing) : Option Path := s.calleeFile <|> s.callerFile

/-- Whether a call would be wanted.  What is not known yet excludes nothing. -/
def wanted (keep : FileFilter) (s : Standing) : Bool :=
  s.callerFile.all keep.caller && s.calleeFile?.all keep.callee

/-- The call that the standing records make, on a line of the trace. -/
def call (s : Standing) (callLine lineNo : Nat) : Except Fault RawCall :=
  match s.callerFile, s.callerId, s.calleeId with
  | some callerFile, some callerId, some calleeId =>
    RawCall.of callerFile callerId (s.calleeFile.getD callerFile) calleeId callLine
  | _, _, _ => .error (.malformed lineNo "call record before fl=/fn=/cfn=")

/-- Notes the value of a record; `none` if it cannot be expanded. -/
def note? (disk : Disk) (s : Standing) (key : RecordKey) (value : List Char) : Option Standing :=
  match key with
  | .calls => some s
  | .callerFile => (s.files.expand? value).map fun (v, t) =>
    { s with callerFile := some (fileNamed disk v), files := t }
  | .calleeFile => (s.files.expand? value).map fun (v, t) =>
    { s with calleeFile := some (fileNamed disk v), files := t }
  | .inlinedFile => (s.files.expand? value).map fun (_, t) => { s with files := t }
  | .callerName => (s.functions.expand? value).map fun (v, t) =>
    { s with callerId := some (String.ofList v), functions := t }
  | .calleeName => (s.functions.expand? value).map fun (v, t) =>
    { s with calleeId := some (String.ofList v), functions := t }

end Standing

def readCallLine (lineNo : Nat) (line : List Char) : Except Fault Nat :=
  match (Text.firstWord? line).bind Text.readCount? with
  | some n => .ok n
  | none => .error (.callSite lineNo (String.ofList line))

/-- What a line does when it is not the line behind a call record: the records that stand after it,
and whether the next line is the site of a wanted call. -/
def readRecord (disk : Disk) (keep : FileFilter) (s : Standing) (lineNo : Nat) (line : List Char) :
    Except Fault (Standing × Bool) :=
  match recordKey? line with
  | none => .ok (s, false)
  | some key =>
    match Text.cutFirst? '=' line with
    | none => .error (.malformed lineNo (String.ofList line))
    | some (_, value) =>
      match s.note? disk key value with
      | none => .error (.malformed lineNo (String.ofList line))
      | some s' => .ok (s', key = .calls && s'.wanted keep)

/-- Reads lines, of which the first has the number `lineNo`; `atSite` says whether it is the site of
a call. -/
def readFrom (disk : Disk) (keep : FileFilter) (s : Standing) (atSite : Bool) (lineNo : Nat) :
    List (List Char) → Except Fault (List RawCall)
  | [] => .ok []
  | raw :: rest =>
    let line := Text.trim raw
    if atSite then
      match readCallLine lineNo line with
      | .error e => .error e
      | .ok callLine =>
        match s.call callLine lineNo with
        | .error e => .error e
        | .ok c =>
          match readFrom disk keep s false (lineNo + 1) rest with
          | .error e => .error e
          | .ok cs => .ok (c :: cs)
    else
      match readRecord disk keep s lineNo line with
      | .error e => .error e
      | .ok (s', atSite') => readFrom disk keep s' atSite' (lineNo + 1) rest

def readLines (disk : Disk) (keep : FileFilter) (lines : List (List Char)) :
    Except Fault (List RawCall) :=
  readFrom disk keep .start false 1 lines

def read (disk : Disk) (keep : FileFilter) (trace : List Char) : Except Fault (List RawCall) :=
  readLines disk keep (Text.lines trace)

end AsyncSpread.Trace
