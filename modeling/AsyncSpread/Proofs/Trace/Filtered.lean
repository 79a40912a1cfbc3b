import AsyncSpread.Proofs.Fallible
import AsyncSpread.Proofs.Trace.Records

/-!
Reading the wanted calls of a trace.

A reading that leaves calls out goes through the same records as one that leaves none out, since the
site of a call that it passes over is no record.  So it reads what the other one reads, but for the
calls that are not wanted (`readLines_filter`).
-/

namespace AsyncSpread.Trace

def FileFilter.keeps (keep : FileFilter) (c : RawCall) : Bool :=
  keep.caller c.caller.file && keep.callee c.callee.file

variable {disk : Disk} {keep : FileFilter} {s s' : Standing} {lineNo : Nat}

theorem Frame.eq_of {file : Path} {id : String} {f : Frame} (h : Frame.of file id = .ok f) :
    f.file = file ∧ f.id = id := by
  unfold Frame.of Frame.of? at h
  cases hid : splitFunctionId? id with
  | none =>
    rw [hid] at h
    cases h
  | some parts =>
    rw [hid] at h
    cases h
    exact ⟨rfl, rfl⟩

theorem RawCall.frames_of {callerFile calleeFile : Path} {callerId calleeId : String}
    {callLine : Nat} {c : RawCall}
    (h : RawCall.of callerFile callerId calleeFile calleeId callLine = .ok c) :
    Frame.of callerFile callerId = .ok c.caller ∧ Frame.of calleeFile calleeId = .ok c.callee ∧
    c.callLine = callLine := by
  obtain ⟨caller, hcaller, h⟩ := Fallible.exists_of_bind h
  obtain ⟨callee, hcallee, h⟩ := Fallible.exists_of_bind h
  cases h
  exact ⟨hcaller, hcallee, rfl⟩

/-- The call that the standing records make is made of them. -/
structure Standing.Makes (s : Standing) (callLine : Nat) (c : RawCall) : Prop where
  callerFile : s.callerFile = some c.caller.file
  callerId : s.callerId = some c.caller.id
  calleeFile : s.calleeFile? = some c.callee.file
  calleeId : s.calleeId = some c.callee.id
  callLine : c.callLine = callLine

theorem Standing.makes_of_call {callLine : Nat} {c : RawCall} (h : s.call callLine lineNo = .ok c) :
    s.Makes callLine c := by
  unfold call at h
  split at h
  · rename_i callerFile callerId calleeId hfile hcallerId hcalleeId
    obtain ⟨hcaller, hcallee, hline⟩ := RawCall.frames_of h
    obtain ⟨hcallerFile, hcaller⟩ := Frame.eq_of hcaller
    obtain ⟨hcalleeFile, hcallee⟩ := Frame.eq_of hcallee
    refine ⟨by rw [hcallerFile, hfile], by rw [hcaller, hcallerId], ?_,
      by rw [hcallee, hcalleeId], hline⟩
    rw [hcalleeFile, calleeFile?, hfile]
    cases s.calleeFile <;> rfl
  · cases h

/-- What is asked of the standing records is what would be asked of the call that they make. -/
theorem Standing.wanted_eq_keeps {callLine : Nat} {c : RawCall} (h : s.call callLine lineNo = .ok c)
    (keep : FileFilter) : s.wanted keep = keep.keeps c := by
  have hmakes := makes_of_call h
  rw [wanted, FileFilter.keeps, hmakes.callerFile, hmakes.calleeFile]
  rfl

theorem readRecord_all {line : List Char} {atSite : Bool}
    (h : readRecord disk .all s lineNo line = .ok (s', atSite)) (keep : FileFilter) :
    readRecord disk keep s lineNo line = .ok (s', atSite && s'.wanted keep) := by
  unfold readRecord at h ⊢
  split at h
  · cases h
    rfl
  · split at h
    · cases h
    · split at h
      · cases h
      · simp only [Except.ok.injEq, Prod.mk.injEq] at h
        obtain ⟨rfl, rfl⟩ := h
        simp only [Standing.wanted_all, Bool.and_true]

/-- Where the reading that keeps all calls stands at a site, the other one does if it wants the
call. -/
theorem readFrom_filter {lines : List (List Char)} {atSite : Bool} {calls : List RawCall}
    (h : readFrom disk .all s atSite lineNo lines = .ok calls) (keep : FileFilter) :
    readFrom disk keep s (atSite && s.wanted keep) lineNo lines = .ok
      (calls.filter keep.keeps) := by
  induction lines generalizing s atSite lineNo calls with
  | nil =>
    cases h
    rfl
  | cons raw lines ih =>
    cases atSite with
    | false =>
      obtain ⟨s', atSite', hrecord, hrest⟩ := exists_of_readFrom_record h
      rw [readFrom]
      simp only [Bool.false_eq_true, if_false, Bool.false_and]
      rw [readRecord_all hrecord keep]
      exact ih hrest
    | true =>
      obtain ⟨callLine, c, rest, hsite, hcall, hrest, rfl⟩ := exists_of_readFrom_site h
      have hrest := ih hrest
      rw [Bool.false_and] at hrest
      rw [readFrom, Bool.true_and, Standing.wanted_eq_keeps hcall keep, List.filter_cons]
      by_cases hkeep : keep.keeps c = true
      · simp only [hkeep, if_true, hsite, hcall, hrest]
      · -- The site of a call that is not wanted is read as any other line.
        have hnone := recordKey?_eq_none_of_site hsite
        simp only [hkeep, Bool.false_eq_true, if_false,
          readRecord_of_recordKey?_eq_none hnone, hrest]

/-- If a trace can be read, it can be read with any filter, which keeps the wanted calls in their
order. -/
theorem readLines_filter {lines : List (List Char)} {calls : List RawCall}
    (h : readLines disk .all lines = .ok calls) (keep : FileFilter) :
    readLines disk keep lines =
      .ok (calls.filter fun c => keep.caller c.caller.file && keep.callee c.callee.file) := by
  unfold readLines at h ⊢
  have hfrom := readFrom_filter h keep
  rw [Bool.false_and] at hfrom
  exact hfrom

/-- A trace of a call into a library, and of one inside the project whose callee has the file of its
caller. -/
def visit : List (List Char) := List.map String.toList [
  "fl=app.py", "fn=main:1", "cfn=start:4", "calls=1", "2 0", "cfl=lib.py", "cfn=run:3", "calls=1 3",
  "+9 0", "cfl=app.py", "cfn=stop:7", "calls=1", "10 0"]

/-- The calls of `visit`, from the function that makes them all. -/
def visitCall (file name : String) (line callLine : Nat) : RawCall :=
  ⟨⟨⟨"app.py"⟩, "main:1", "main", 1⟩, ⟨⟨file⟩, name ++ ":" ++ toString line, name, line⟩, callLine⟩

theorem readLines_filter_visit :
    readLines ⟨[], []⟩ .all visit =
      .ok [visitCall "app.py" "start" 4 2, visitCall "lib.py" "run" 3 9,
        visitCall "app.py" "stop" 7 10] ∧
    readLines ⟨[], []⟩ ⟨fun _ => true, fun file => file ≠ ⟨"lib.py"⟩⟩ visit =
      .ok [visitCall "app.py" "start" 4 2, visitCall "app.py" "stop" 7 10] := by
  have hall : readLines ⟨[], []⟩ .all visit =
      .ok [visitCall "app.py" "start" 4 2, visitCall "lib.py" "run" 3 9,
        visitCall "app.py" "stop" 7 10] :=
    toOption_eq_some (by decide +kernel)
  exact ⟨hall, readLines_filter hall ⟨fun _ => true, fun file => file ≠ ⟨"lib.py"⟩⟩⟩

end AsyncSpread.Trace
