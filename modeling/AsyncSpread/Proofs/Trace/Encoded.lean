import AsyncSpread.Proofs.Trace.Records

/-!
Traces that encode calls.

Before a call the writer of a trace says where the caller and the callee are and what they are
called, unless the last word on that still stands.  A value is written out, given an id, or referred
to by the id that it got last.  `Encodes` says what may be written, in terms of all that was said
before; nothing but that decides what is read, so the calls come back (`readLines_of_encodes`).
-/

namespace AsyncSpread

namespace Text

variable {cs : List Char}

theorem isBlank_of_mem_writeCount {n : Nat} {c : Char} (h : c ∈ writeCount n) :
    isBlank c = false ∧ c ≠ ':' := by
  have hdigit : c.isDigit = true := Nat.isDigit_of_mem_toDigits (by decide) (by decide) h
  rw [Char.isDigit, Bool.and_eq_true, decide_eq_true_eq, decide_eq_true_eq] at hdigit
  have hlow : 48 ≤ c.toNat := hdigit.1
  have hhigh : c.toNat ≤ 57 := hdigit.2
  constructor
  · simp only [isBlank, Bool.or_eq_false_iff, Bool.and_eq_false_iff, decide_eq_false_iff_not,
      beq_eq_false_iff_ne]
    omega
  · rintro rfl
    exact absurd hhigh (by decide)

theorem dropWhile_isBlank (h : ∀ c ∈ cs, isBlank c = false) : cs.dropWhile isBlank = cs := by
  cases cs with
  | nil => rfl
  | cons c cs => rw [List.dropWhile_cons, h c List.mem_cons_self, if_neg Bool.false_ne_true]

theorem trim_eq_self (h : ∀ c ∈ cs, isBlank c = false) : trim cs = cs := by
  rw [trim, trimLeft, dropWhile_isBlank h, trimRight,
    dropWhile_isBlank fun c hc => h c (List.mem_reverse.1 hc), List.reverse_reverse]

theorem firstWord?_append {rest : List Char} (h : ∀ c ∈ cs, isBlank c = false) (hne : cs ≠ [])
    (hrest : ∀ c ∈ rest.head?, isBlank c = true) : firstWord? (cs ++ rest) = some cs := by
  have hword : rest.takeWhile (fun c => !isBlank c) = [] := by
    cases rest with
    | nil => rfl
    | cons c rest => rw [List.takeWhile_cons, hrest c rfl, Bool.not_true, if_neg Bool.false_ne_true]
  have htake : (cs ++ rest).takeWhile (fun c => !isBlank c) = cs := by
    rw [List.takeWhile_append_of_pos fun c hc => by rw [h c hc]; rfl, hword, List.append_nil]
  obtain ⟨c, cs', rfl⟩ := List.exists_cons_of_ne_nil hne
  rw [List.cons_append] at htake ⊢
  rw [firstWord?_cons (h c List.mem_cons_self)]
  rw [List.takeWhile_cons, h c List.mem_cons_self, Bool.not_false, if_pos rfl] at htake
  exact congrArg some htake

end Text

namespace Trace

/-! ## What is written -/

/-- What a record has said: its value, and the id that it gave to it, if any. -/
structure Said where
  key : RecordKey
  id : Option (List Char)
  value : List Char

def RecordKey.ofFile : RecordKey → Bool
  | .callerFile | .calleeFile | .inlinedFile => true
  | .callerName | .calleeName | .calls => false

def lastSaid? (past : List Said) (key : RecordKey) : Option (List Char) :=
  (past.find? fun r => r.key = key).map Said.value

def meaning? (past : List Said) (ofFile : Bool) (id : List Char) : Option (List Char) :=
  (past.find? fun r => r.key.ofFile = ofFile && r.id = some id).map Said.value

/-- The ways to write a value, each with the id that the value gets. -/
inductive Writes (past : List Said) (ofFile : Bool) (value : List Char) :
    Option (List Char) → List Char → Prop
  | literal (h : value.head? ≠ some '(') : Writes past ofFile value none value
  | definition {id name : List Char} (hid : ')' ∉ id) (hname : Text.trim name = value)
      (hne : value ≠ []) : Writes past ofFile value (some id) ('(' :: (id ++ ')' :: name))
  | reference {id : List Char} (hid : ')' ∉ id) (h : meaning? past ofFile id = some value) :
      Writes past ofFile value none ('(' :: (id ++ [')']))

/-- A function whose file is named as it is, and whose id is made of its name and line. -/
structure Frame.Plain (disk : Disk) (f : Frame) : Prop where
  file : fileNamed disk f.file.text.toList = f.file
  id : f.id = f.name ++ ":" ++ String.ofList (Text.writeCount f.line)
  line : f.line < Text.countLimit

instance (disk : Disk) (f : Frame) : Decidable (f.Plain disk) :=
  decidable_of_iff (fileNamed disk f.file.text.toList = f.file ∧
      f.id = f.name ++ ":" ++ String.ofList (Text.writeCount f.line) ∧ f.line < Text.countLimit)
    ⟨fun ⟨file, id, line⟩ => ⟨file, id, line⟩, fun h => ⟨h.file, h.id, h.line⟩⟩

/-- The last words are on a call. -/
structure Introduced (disk : Disk) (past : List Said) (c : RawCall) : Prop where
  caller : c.caller.Plain disk
  callee : c.callee.Plain disk
  callerFile : lastSaid? past .callerFile = some c.caller.file.text.toList
  callerId : lastSaid? past .callerName = some c.caller.id.toList
  calleeFile : lastSaid? past .calleeFile = some c.callee.file.text.toList
  calleeId : lastSaid? past .calleeName = some c.callee.id.toList

instance (disk : Disk) (past : List Said) (c : RawCall) : Decidable (Introduced disk past c) :=
  decidable_of_iff ((c.caller.Plain disk ∧ c.callee.Plain disk) ∧
      (lastSaid? past .callerFile = some c.caller.file.text.toList ∧
        lastSaid? past .callerName = some c.caller.id.toList) ∧
      lastSaid? past .calleeFile = some c.callee.file.text.toList ∧
        lastSaid? past .calleeName = some c.callee.id.toList)
    ⟨fun ⟨⟨caller, callee⟩, ⟨callerFile, callerId⟩, calleeFile, calleeId⟩ =>
        ⟨caller, callee, callerFile, callerId, calleeFile, calleeId⟩,
      fun h => ⟨⟨h.caller, h.callee⟩, ⟨h.callerFile, h.callerId⟩, h.calleeFile, h.calleeId⟩⟩

/-- A line begins with a number, and a blank or nothing is behind it. -/
def IsSite (line : List Char) (n : Nat) : Prop :=
  n < Text.countLimit ∧ ∃ rest, Text.trim line = Text.writeCount n ++ rest ∧
    ∀ c ∈ rest.head?, Text.isBlank c = true

/-- Lines that encode some calls, behind what was said before. -/
inductive Encodes (disk : Disk) : List Said → List (List Char) → List RawCall → Prop
  | nil {past : List Said} : Encodes disk past [] []
  /-- A line that begins with no key says nothing. -/
  | other {past : List Said} {line : List Char} {lines : List (List Char)} {calls : List RawCall}
      (hline : ∀ k ∈ recordKeys, ¬ k.1.toList <+: Text.trim line)
        (h : Encodes disk past lines calls) : Encodes disk past (line :: lines) calls
  | record {past : List Said} {line value rest : List Char} {lines : List (List Char)}
      {calls : List RawCall}
      {word : String} {key : RecordKey} {id : Option (List Char)} (hkey : (word, key) ∈ recordKeys)
        (hne : key ≠ .calls)
      (hline : Text.trim line = word.toList ++ '=' :: rest)
        (hvalue : Writes past key.ofFile value id (Text.trim rest))
      (h : Encodes disk (⟨key, id, value⟩ :: past) lines calls) :
        Encodes disk past (line :: lines) calls
  | call {past : List Said} {line site : List Char} {lines : List (List Char)} {c : RawCall}
      {calls : List RawCall}
      (hc : Introduced disk past c) (hline : "calls=".toList <+: Text.trim line)
        (hsite : IsSite site c.callLine)
      (h : Encodes disk past lines calls) : Encodes disk past (line :: site :: lines) (c :: calls)

/-! ## What stands -/

theorem lastSaid?_cons (r : Said) (past : List Said) (key : RecordKey) :
    lastSaid? (r :: past) key = if r.key = key then some r.value else lastSaid? past key := by
  rw [lastSaid?, List.find?_cons]
  by_cases h : r.key = key <;> simp [h, lastSaid?]

theorem meaning?_cons (r : Said) (past : List Said) (ofFile : Bool) (id : List Char) :
    meaning? (r :: past) ofFile id =
      if r.key.ofFile = ofFile ∧ r.id = some id then some r.value else meaning? past ofFile id := by
  rw [meaning?, List.find?_cons]
  by_cases h : r.key.ofFile = ofFile ∧ r.id = some id
  · simp [h]
  · rw [if_neg h]
    have hno : (decide (r.key.ofFile = ofFile) && decide (r.id = some id)) = false := by
      rw [Bool.eq_false_iff, ne_eq, Bool.and_eq_true, decide_eq_true_eq, decide_eq_true_eq]
      exact h
    rw [hno]
    rfl

/-- What a reading keeps of the records is what their last words are. -/
structure Standing.Follows (disk : Disk) (s : Standing) (past : List Said) : Prop where
  callerFile : s.callerFile = (lastSaid? past .callerFile).map (fileNamed disk)
  callerId : s.callerId = (lastSaid? past .callerName).map String.ofList
  calleeFile : s.calleeFile = (lastSaid? past .calleeFile).map (fileNamed disk)
  calleeId : s.calleeId = (lastSaid? past .calleeName).map String.ofList
  files : ∀ id, s.files.get? id = meaning? past true id
  functions : ∀ id, s.functions.get? id = meaning? past false id

theorem Standing.follows_start (disk : Disk) : Standing.start.Follows disk [] :=
  ⟨rfl, rfl, rfl, rfl, fun _ => rfl, fun _ => rfl⟩

variable {disk : Disk} {past : List Said} {s : Standing} {line value rest : List Char}
  {key : RecordKey} {id : Option (List Char)} {lineNo : Nat}

theorem NameTable.get?_cons (t : NameTable) (id value id' : List Char) :
    NameTable.get? ((id, value) :: t) id' = if id = id' then some value else t.get? id' := by
  rw [get?, List.find?_cons]
  by_cases h : id = id'
  · simp [h]
  · have hno : (id == id') = false := beq_eq_false_iff_ne.2 h
    simp only [hno, if_neg h]
    rfl

/-- A value that is written somehow is found again, and its id leads to it from then on. -/
theorem exists_expand? {t : NameTable} {ofFile : Bool}
    (ht : ∀ id, t.get? id = meaning? past ofFile id)
    (h : Writes past ofFile value id (Text.trim rest)) :
    ∃ t', t.expand? rest = some (value, t') ∧
      ∀ id', t'.get? id' = if id = some id' then some value else t.get? id' := by
  unfold NameTable.expand?
  generalize Text.trim rest = text at h
  cases h with
  | literal hhead =>
    refine ⟨t, ?_, fun id' => by rw [if_neg nofun]⟩
    cases value with
    | nil => rfl
    | cons c cs =>
      have hc : c ≠ '(' := fun hc => hhead (by rw [hc]; rfl)
      simp only
      split
      · rename_i heq
        exact absurd (List.cons.inj heq).1 hc
      · rfl
  | @definition i name hid hname hne =>
    refine ⟨(i, value) :: t, ?_, fun id' => ?_⟩
    · simp only [Text.cutFirst?_eq_some_iff.2 ⟨rfl, hid⟩, hname]
      rw [if_neg (by rwa [List.isEmpty_iff])]
    · rw [NameTable.get?_cons]
      simp only [Option.some.injEq]
  | reference hid hmeaning =>
    refine ⟨t, ?_, fun id' => by rw [if_neg nofun]⟩
    simp only [Text.cutFirst?_eq_some_iff.2 ⟨rfl, hid⟩]
    rw [ht, hmeaning]
    rfl

/-- A reading notes what a record says, if the value is found whatever else has an id. -/
theorem Standing.Follows.exists_note? (hs : s.Follows disk past) (hne : key ≠ .calls)
    (h : ∀ t : NameTable, (∀ id', t.get? id' = meaning? past key.ofFile id') →
      ∃ t', t.expand? rest = some (value, t') ∧
      ∀ id', t'.get? id' = if id = some id' then some value else t.get? id') :
    ∃ s', s.note? disk key rest = some s' ∧ s'.Follows disk (⟨key, id, value⟩ :: past) := by
  cases key with
  | calls => exact absurd rfl hne
  | callerFile | calleeFile | inlinedFile =>
    obtain ⟨t, ht, hget⟩ := h s.files hs.files
    refine ⟨_, by rw [note?, ht]; rfl, ?_⟩
    constructor <;> simp [lastSaid?_cons, meaning?_cons, hs.callerFile, hs.callerId, hs.calleeFile,
      hs.calleeId, hs.files, hs.functions, hget, RecordKey.ofFile]
  | callerName | calleeName =>
    obtain ⟨t, ht, hget⟩ := h s.functions hs.functions
    refine ⟨_, by rw [note?, ht]; rfl, ?_⟩
    constructor <;> simp [lastSaid?_cons, meaning?_cons, hs.callerFile, hs.callerId, hs.calleeFile,
      hs.calleeId, hs.files, hs.functions, hget, RecordKey.ofFile]

/-! ## What is read -/

theorem splitFunctionId?_of_plain {f : Frame} (h : f.Plain disk) :
    splitFunctionId? f.id = some (f.name, f.line) := by
  have hid : f.id.toList = f.name.toList ++ ':' :: Text.writeCount f.line := by
    rw [h.id]
    simp
  have hcut : Text.cutLast? ':' f.id.toList = some (f.name.toList, Text.writeCount f.line) :=
    Text.cutLast?_eq_some_iff.2 ⟨hid, fun hmem => (Text.isBlank_of_mem_writeCount hmem).2 rfl⟩
  have htrim : Text.trim (Text.writeCount f.line) = Text.writeCount f.line :=
    Text.trim_eq_self fun c hc => (Text.isBlank_of_mem_writeCount hc).1
  rw [splitFunctionId?, hcut]
  simp [htrim, Text.readCount?_writeCount h.line]

theorem frame_of_plain {f : Frame} (h : f.Plain disk) : Frame.of f.file f.id = .ok f := by
  rw [Frame.of, Frame.of?, splitFunctionId?_of_plain h]
  rfl

theorem Standing.Follows.call_eq {c : RawCall} (hs : s.Follows disk past)
    (hc : Introduced disk past c) (lineNo : Nat) : s.call c.callLine lineNo = .ok c := by
  have hcallerFile : s.callerFile = some c.caller.file := by
    rw [hs.callerFile, hc.callerFile, Option.map_some, hc.caller.file]
  have hcalleeFile : s.calleeFile = some c.callee.file := by
    rw [hs.calleeFile, hc.calleeFile, Option.map_some, hc.callee.file]
  have hcallerId : s.callerId = some c.caller.id := by
    rw [hs.callerId, hc.callerId, Option.map_some, String.ofList_toList]
  have hcalleeId : s.calleeId = some c.callee.id := by
    rw [hs.calleeId, hc.calleeId, Option.map_some, String.ofList_toList]
  rw [call, hcallerFile, hcallerId, hcalleeId, hcalleeFile]
  simp only [Option.getD_some]
  rw [RawCall.of, frame_of_plain hc.caller, frame_of_plain hc.callee]
  rfl

theorem readCallLine_of_site {n : Nat} (h : IsSite line n) (lineNo : Nat) :
    readCallLine lineNo (Text.trim line) = .ok n := by
  obtain ⟨hn, rest, hline, hrest⟩ := h
  have hword : Text.firstWord? (Text.trim line) = some (Text.writeCount n) := by
    rw [hline]
    exact Text.firstWord?_append (fun c hc => (Text.isBlank_of_mem_writeCount hc).1)
      Nat.toDigits_ne_nil hrest
  rw [readCallLine, hword, Option.bind_some, Text.readCount?_writeCount hn]

theorem recordKey?_eq_none (h : ∀ k ∈ recordKeys, ¬ k.1.toList <+: line) :
    recordKey? line = none := by
  rw [recordKey?, Option.map_eq_none_iff, List.find?_eq_none]
  intro k hk hbegins
  exact h k hk (List.isPrefixOf_iff_prefix.1 hbegins)

theorem recordKey?_append {word : String} (h : (word, key) ∈ recordKeys) (rest : List Char) :
    recordKey? (word.toList ++ '=' :: rest) = some key ∧ '=' ∉ word.toList := by
  simp only [recordKeys, List.mem_cons, Prod.mk.injEq, List.not_mem_nil, or_false] at h
  rcases h with ⟨rfl, rfl⟩ | ⟨rfl, rfl⟩ | ⟨rfl, rfl⟩ | ⟨rfl, rfl⟩ | ⟨rfl, rfl⟩ | ⟨rfl, rfl⟩ |
    ⟨rfl, rfl⟩ | ⟨rfl, rfl⟩
  all_goals exact ⟨rfl, by decide⟩

theorem readRecord_append {word : String} {s' : Standing} (h : (word, key) ∈ recordKeys)
    (hnote : s.note? disk key rest = some s') (lineNo : Nat) :
    readRecord disk .all s lineNo (word.toList ++ '=' :: rest) = .ok
      (s', key = .calls && s'.wanted .all) := by
  obtain ⟨hkey, hword⟩ := recordKey?_append h rest
  rw [readRecord, hkey]
  simp only [Text.cutFirst?_eq_some_iff.2 ⟨rfl, hword⟩, hnote]

/-- What is encoded behind some records is read where they stand. -/
theorem readFrom_of_encodes {lines : List (List Char)} {calls : List RawCall}
    (h : Encodes disk past lines calls) (hs : s.Follows disk past) (lineNo : Nat) :
    readFrom disk .all s false lineNo lines = .ok calls := by
  induction h generalizing s lineNo with
  | nil => rfl
  | other hline _ ih =>
    rw [readFrom, readRecord_of_recordKey?_eq_none (recordKey?_eq_none hline)]
    exact ih hs (lineNo + 1)
  | record hkey hne hline hvalue _ ih =>
    obtain ⟨s', hnote, hs'⟩ := hs.exists_note? hne fun t ht => exists_expand? ht hvalue
    rw [readFrom, hline, readRecord_append hkey hnote, decide_eq_false hne]
    exact ih hs' (lineNo + 1)
  | @call past line site lines c calls hc hline hsite _ ih =>
    obtain ⟨rest, hrest⟩ := hline
    have hkey : ("calls", RecordKey.calls) ∈ recordKeys := List.mem_cons_self
    have hnote : s.note? disk .calls rest = some s := rfl
    have hrecord := readRecord_append hkey hnote lineNo
    have hcalls : "calls".toList ++ '=' :: rest = "calls=".toList ++ rest := rfl
    rw [hcalls, hrest, s.wanted_all] at hrecord
    rw [readFrom, hrecord]
    simp only [Bool.false_eq_true, if_false, decide_true, Bool.and_self]
    rw [readFrom, readCallLine_of_site hsite]
    simp only [if_true, hs.call_eq hc, ih hs]

/-- The calls that a trace encodes are what is read from it. -/
theorem readLines_of_encodes {lines : List (List Char)} {calls : List RawCall}
    (h : Encodes disk [] lines calls) : readLines disk .all lines = .ok calls :=
  readFrom_of_encodes h (Standing.follows_start disk) 1

/-- A trace that gives names to two files and refers to one of them later.  The caller is said once
for both calls. -/
def roundTrip : List (List Char) := List.map String.toList [
  "version: 1", "fl=(1) app.py", "fn=main:1", "cfl=(2) lib.py", "cfn=run:3", "calls=1 3", "4 100",
  "fi=(2)", "5 2", "cfi=(1)", "cfn=stop:7", "calls=2 7", " 9 10"]

def roundTripCalls : List RawCall := [
  ⟨⟨⟨"app.py"⟩, "main:1", "main", 1⟩, ⟨⟨"lib.py"⟩, "run:3", "run", 3⟩, 4⟩,
  ⟨⟨⟨"app.py"⟩, "main:1", "main", 1⟩, ⟨⟨"app.py"⟩, "stop:7", "stop", 7⟩, 9⟩]

theorem readLines_of_encodes_roundTrip :
    Encodes ⟨[], []⟩ [] roundTrip roundTripCalls ∧
    readLines ⟨[], []⟩ .all roundTrip = .ok roundTripCalls := by
  have hblank : ∀ {cost : List Char}, ∀ c ∈ (' ' :: cost).head?, Text.isBlank c = true := by
    rintro cost c ⟨rfl⟩
    decide
  have h : Encodes ⟨[], []⟩ [] roundTrip roundTripCalls := by
    refine .other (by decide +kernel) ?_
    refine @Encodes.record _ _ _ "app.py".toList "(1) app.py".toList _ _ "fl" .callerFile _
      (by decide) nofun (by decide +kernel)
      (@Writes.definition _ _ _ "1".toList " app.py".toList (by decide) (by decide +kernel)
        (by decide)) ?_
    refine @Encodes.record _ _ _ "main:1".toList "main:1".toList _ _ "fn" .callerName _
      (by decide) nofun (by decide +kernel) (.literal (by decide)) ?_
    refine @Encodes.record _ _ _ "lib.py".toList "(2) lib.py".toList _ _ "cfl" .calleeFile _
      (by decide) nofun (by decide +kernel)
      (@Writes.definition _ _ _ "2".toList " lib.py".toList (by decide) (by decide +kernel)
        (by decide)) ?_
    refine @Encodes.record _ _ _ "run:3".toList "run:3".toList _ _ "cfn" .calleeName _
      (by decide) nofun (by decide +kernel) (.literal (by decide)) ?_
    refine .call (by decide +kernel) (by decide +kernel)
      ⟨by decide, [' ', '1', '0', '0'], by decide +kernel, hblank⟩ ?_
    refine @Encodes.record _ _ _ "lib.py".toList "(2)".toList _ _ "fi" .inlinedFile _
      (by decide) nofun
      (by decide +kernel) (@Writes.reference _ _ _ "2".toList (by decide) (by decide +kernel)) ?_
    refine .other (by decide +kernel) ?_
    refine @Encodes.record _ _ _ "app.py".toList "(1)".toList _ _ "cfi" .calleeFile _
      (by decide) nofun
      (by decide +kernel) (@Writes.reference _ _ _ "1".toList (by decide) (by decide +kernel)) ?_
    refine @Encodes.record _ _ _ "stop:7".toList "stop:7".toList _ _ "cfn" .calleeName _
      (by decide) nofun (by decide +kernel) (.literal (by decide)) ?_
    exact .call (by decide +kernel) (by decide +kernel)
      ⟨by decide, [' ', '1', '0'], by decide +kernel, hblank⟩ .nil
  exact ⟨h, readLines_of_encodes h⟩

end Trace

end AsyncSpread
