import AsyncSpread.Proofs.Trace.Encoded
import AsyncSpread.Proofs.Trace.Filtered
import Mathlib.Data.List.Forall2

/-!
Traces that encode nothing.

A value stands for itself unless it begins with something in parentheses.  Where no value does, each
call is made of the last words before it (`calls_of_literal`), and reading fails for want of an id
nowhere (`fault_of_literal`).
-/

namespace AsyncSpread.Trace

/-! ## What is said -/

/-- What a line says if it is taken at its word. -/
def said? (line : List Char) : Option Said := do
  let key ← recordKey? (Text.trim line)
  let (_, value) ← Text.cutFirst? '=' (Text.trim line)
  return ⟨key, none, Text.trim value⟩

def Parenthesized (value : List Char) : Prop :=
  ∃ inside behind, value = '(' :: (inside ++ ')' :: behind)

instance : DecidablePred Parenthesized := fun value =>
  decidable_of_iff (value.head? = some '(' ∧ ')' ∈ value.tail) <| by
    cases value with
    | nil => exact ⟨nofun, nofun⟩
    | cons c cs =>
      rw [List.head?_cons, Option.some.injEq, List.tail_cons, List.mem_iff_append]
      constructor
      · rintro ⟨rfl, inside, behind, rfl⟩
        exact ⟨inside, behind, rfl⟩
      · rintro ⟨inside, behind, h⟩
        obtain ⟨rfl, rfl⟩ := List.cons.inj h
        exact ⟨rfl, inside, behind, rfl⟩

/-- What a line says is to be taken at its word. -/
def Literal (line : List Char) : Prop := ∀ r ∈ said? line, r.key ≠ .calls → ¬ Parenthesized r.value

instance (line : List Char) : Decidable (Literal line) :=
  inferInstanceAs (Decidable (∀ r ∈ said? line, r.key ≠ .calls → ¬ Parenthesized r.value))

/-- What was said when a line is behind. -/
def heard (past : List Said) (line : List Char) : List Said := (said? line).toList ++ past

/-- The calls that lines tell of, in their order: of each, what was said before and the line behind
its record. -/
def calling (past : List Said) : List (List Char) → List (List Said × List Char)
  | [] => []
  | line :: rest =>
    if recordKey? (Text.trim line) = some .calls then
      (rest.head?.map (heard past line, ·)).toList ++ calling (heard past line) rest
    else calling (heard past line) rest

/-- A call is made of the last words before it and of the number that begins the line behind its
record. -/
structure Told (disk : Disk) (told : List Said × List Char) (c : RawCall) : Prop where
  callerFile : (lastSaid? told.1 .callerFile).map (fileNamed disk) = some c.caller.file
  callerId : lastSaid? told.1 .callerName = some c.caller.id.toList
  calleeFile : (lastSaid? told.1 .calleeFile <|> lastSaid? told.1 .callerFile).map
    (fileNamed disk) = some c.callee.file
  calleeId : lastSaid? told.1 .calleeName = some c.callee.id.toList
  callLine : (Text.firstWord? (Text.trim told.2)).bind Text.readCount? = some c.callLine

variable {disk : Disk} {past : List Said} {s : Standing} {line value : List Char} {lineNo : Nat}

/-! ## What is read -/

theorem NameTable.expand?_of_not_parenthesized (h : ¬ Parenthesized (Text.trim value))
    (t : NameTable) : t.expand? value = some (Text.trim value, t) := by
  unfold expand?
  generalize Text.trim value = text at h
  simp only
  split
  · rename_i rest
    cases hcut : Text.cutFirst? ')' rest with
    | none => rfl
    | some parts =>
      obtain ⟨hrest, -⟩ := Text.cutFirst?_eq_some_iff.1 hcut
      exact absurd ⟨parts.1, parts.2, by rw [hrest]⟩ h
  · rfl

theorem heard_of_said? {r : Said} (h : said? line = some r) : heard past line = r :: past := by
  rw [heard, h]
  rfl

theorem heard_of_recordKey?_eq_none (h : recordKey? (Text.trim line) = none) :
    heard past line = past := by
  rw [heard, said?, h]
  rfl

theorem calling_of_recordKey?_eq_none (h : recordKey? (Text.trim line) = none)
    (rest : List (List Char)) : calling past (line :: rest) = calling past rest := by
  rw [calling, h, if_neg (Option.some_ne_none _).symm, heard_of_recordKey?_eq_none h]

theorem Standing.Follows.cons_calls (hs : s.Follows disk past) (value : List Char) :
    s.Follows disk (⟨.calls, none, value⟩ :: past) := by
  constructor <;> simp [lastSaid?_cons, meaning?_cons, hs.callerFile, hs.callerId, hs.calleeFile,
    hs.calleeId, hs.files, hs.functions]

/-- A line that is to be taken at its word is so, unless it begins with a key and says nothing. -/
theorem Standing.Follows.readRecord_cases (hs : s.Follows disk past) (h : Literal line)
    (lineNo : Nat) :
    (∃ s', readRecord disk .all s lineNo (Text.trim line) =
      .ok (s', decide (recordKey? (Text.trim line) = some .calls)) ∧
      s'.Follows disk (heard past line)) ∨
    readRecord disk .all s lineNo (Text.trim line) = .error
      (.malformed lineNo (String.ofList (Text.trim line))) ∧ '=' ∉ Text.trim line := by
  cases hkey : recordKey? (Text.trim line) with
  | none =>
    refine .inl ⟨s, ?_, by rwa [heard_of_recordKey?_eq_none hkey]⟩
    rw [readRecord_of_recordKey?_eq_none hkey, decide_eq_false nofun]
  | some key =>
    rw [readRecord, hkey]
    cases hcut : Text.cutFirst? '=' (Text.trim line) with
    | none => exact .inr ⟨rfl, Text.cutFirst?_eq_none_iff.1 hcut⟩
    | some parts =>
      have hsaid : said? line = some ⟨key, none, Text.trim parts.2⟩ := by
        rw [said?, hkey, Option.bind_eq_bind, Option.bind_some, hcut]
        rfl
      rw [heard_of_said? hsaid]
      left
      by_cases hcalls : key = .calls
      · subst hcalls
        exact ⟨s, by simp [Standing.note?, Standing.wanted_all], hs.cons_calls _⟩
      · obtain ⟨s', hnote, hs'⟩ := hs.exists_note? hcalls fun t _ =>
          ⟨t, NameTable.expand?_of_not_parenthesized (h _ hsaid hcalls) t,
            fun id' => (if_neg (Option.some_ne_none id').symm).symm⟩
        refine ⟨s', ?_, hs'⟩
        simp only [hnote, decide_eq_false hcalls, Bool.false_and, Option.some.injEq]

theorem readCallLine_eq_ok_iff {n : Nat} :
    readCallLine lineNo line = .ok n ↔ (Text.firstWord? line).bind Text.readCount? = some n := by
  rw [readCallLine]
  cases (Text.firstWord? line).bind Text.readCount? with
  | none => simp only [reduceCtorEq]
  | some n' => simp only [Except.ok.injEq, Option.some.injEq]

theorem eq_some_of_map_ofList {word : Option (List Char)} {id : String}
    (h : word.map String.ofList = some id) : word = some id.toList := by
  obtain ⟨cs, rfl, rfl⟩ := Option.map_eq_some_iff.1 h
  rw [String.toList_ofList]

/-- A call that the standing records make is told of by the words that they follow. -/
theorem Standing.Follows.told {site : List Char} {n : Nat} {c : RawCall} (hs : s.Follows disk past)
    (hsite : readCallLine lineNo (Text.trim site) = .ok n) (h : s.call n lineNo = .ok c) :
    Told disk (past, site) c where
  callerFile := by rw [← hs.callerFile, (makes_of_call h).callerFile]
  callerId := eq_some_of_map_ofList (by rw [← hs.callerId, (makes_of_call h).callerId])
  calleeFile := by
    rw [← (makes_of_call h).calleeFile, calleeFile?, hs.calleeFile, hs.callerFile]
    cases lastSaid? past .calleeFile <;> rfl
  calleeId := eq_some_of_map_ofList (by rw [← hs.calleeId, (makes_of_call h).calleeId])
  callLine := by rw [(makes_of_call h).callLine, readCallLine_eq_ok_iff.1 hsite]

/-- The calls that are read are those that the lines tell of, behind the one whose site comes
first. -/
theorem Standing.Follows.told_of_literal {lines : List (List Char)} {atSite : Bool}
    {calls : List RawCall} (hs : s.Follows disk past) (h : ∀ line ∈ lines, Literal line)
    (hread : readFrom disk .all s atSite lineNo lines = .ok calls) :
    List.Forall₂ (Told disk)
      ((if atSite then lines.head?.map (past, ·) else none).toList ++
      calling past lines) calls := by
  induction lines generalizing s past atSite lineNo calls with
  | nil =>
    cases hread
    cases atSite <;> exact .nil
  | cons line lines ih =>
    have hlines : ∀ line ∈ lines, Literal line := fun x hx => h x (List.mem_cons_of_mem _ hx)
    cases atSite with
    | false =>
      obtain ⟨s', atSite, hrecord, hrest⟩ := exists_of_readFrom_record hread
      rcases hs.readRecord_cases (h line List.mem_cons_self) lineNo
        with ⟨s'', hliteral, hs'⟩ | ⟨hliteral, -⟩
      · rw [hrecord] at hliteral
        cases hliteral
        have hcalls := ih hs' hlines hrest
        rw [calling]
        by_cases hkey : recordKey? (Text.trim line) = some .calls <;> simpa [hkey] using hcalls
      · rw [hrecord] at hliteral
        cases hliteral
    | true =>
      obtain ⟨n, c, cs, hsite, hcall, hrest, rfl⟩ := exists_of_readFrom_site hread
      -- The site is no record, so nothing is said there.
      rw [calling_of_recordKey?_eq_none (recordKey?_eq_none_of_site hsite)]
      exact .cons (hs.told hsite hcall) (ih hs hlines hrest)

/-- A call is malformed only if it comes before the records that it needs. -/
theorem Standing.malformed_of_call {n lineNo' : Nat} {text : String}
    (h : s.call n lineNo = .error (.malformed lineNo' text)) :
    text = "call record before fl=/fn=/cfn=" := by
  unfold call at h
  split at h
  · rename_i callerFile callerId calleeId _ _ _
    unfold RawCall.of Frame.of at h
    cases hcaller : Frame.of? callerFile callerId with
    | none =>
      rw [hcaller] at h
      cases h
    | some caller =>
      cases hcallee : Frame.of? (s.calleeFile.getD callerFile) calleeId with
      | none =>
        rw [hcaller, hcallee] at h
        cases h
      | some callee =>
        rw [hcaller, hcallee] at h
        cases h
  · cases h
    rfl

/-- Nothing is malformed for want of an id: a record that is malformed has no value at all. -/
theorem Standing.Follows.malformed_of_literal {lines : List (List Char)} {atSite : Bool}
    {lineNo' : Nat} {text : String} (hs : s.Follows disk past) (h : ∀ line ∈ lines, Literal line)
    (hread : readFrom disk .all s atSite lineNo lines = .error (.malformed lineNo' text)) :
    '=' ∉ text.toList ∨ text = "call record before fl=/fn=/cfn=" := by
  induction lines generalizing s past atSite lineNo with
  | nil => cases hread
  | cons line lines ih =>
    have hlines : ∀ line ∈ lines, Literal line := fun x hx => h x (List.mem_cons_of_mem _ hx)
    rw [readFrom] at hread
    cases atSite with
    | false =>
      simp only [Bool.false_eq_true, if_false] at hread
      rcases hs.readRecord_cases (h line List.mem_cons_self) lineNo
        with ⟨s', hrecord, hs'⟩ | ⟨hrecord, hvalue⟩
      · rw [hrecord] at hread
        exact ih hs' hlines hread
      · rw [hrecord] at hread
        cases hread
        rw [String.toList_ofList]
        exact .inl hvalue
    | true =>
      simp only [if_true] at hread
      split at hread
      · rename_i why hsite
        cases hread
        unfold readCallLine at hsite
        split at hsite <;> cases hsite
      · split at hread
        · rename_i why hcall
          cases hread
          exact .inr (malformed_of_call hcall)
        · split at hread
          · rename_i why hrest
            cases hread
            exact ih hs hlines hrest
          · cases hread

/-- Where no value begins with something in parentheses, the calls that are read are those that the
lines tell of, each made of the last words before it. -/
theorem calls_of_literal {lines : List (List Char)} {calls : List RawCall}
    (h : ∀ line ∈ lines, Literal line) (hread : readLines disk .all lines = .ok calls) :
    List.Forall₂ (Told disk) (calling [] lines) calls :=
  (Standing.follows_start disk).told_of_literal h hread

/-- A trace of a function whose name holds parentheses and an equals sign, in a file whose name
begins with an open one. -/
def unencoded : List (List Char) := List.map String.toList [
  "fl=(draft.py", "fn=call(x=1):5", "cfl= lib (copy).py", "cfn=g:4", "calls=1", "6 0"]

theorem calls_of_literal_unencoded : (∀ line ∈ unencoded, Literal line) ∧ ∃ calls,
    readLines ⟨[], []⟩ .all unencoded = .ok calls ∧ List.Forall₂ (Told ⟨[], []⟩)
      (calling [] unencoded) calls := by
  have hliteral : ∀ line ∈ unencoded, Literal line := by decide +kernel
  have hread : readLines ⟨[], []⟩ .all unencoded =
      .ok [⟨⟨⟨"(draft.py"⟩, "call(x=1):5", "call(x=1)", 5⟩,
        ⟨⟨"lib (copy).py"⟩, "g:4", "g", 4⟩, 6⟩] :=
    toOption_eq_some (by decide +kernel)
  exact ⟨hliteral, _, hread, calls_of_literal hliteral hread⟩

-- What stands in parentheses in front is taken for an id, whatever it is.
example : (readLines ⟨[], []⟩ .all (List.map String.toList [
      "fl=a.py", "fn=(lambda):5", "cfl=a.py", "cfn=g:4", "calls=1", "6 0"])).toOption =
    some [⟨⟨⟨"a.py"⟩, ":5", "", 5⟩, ⟨⟨"a.py"⟩, "g:4", "g", 4⟩, 6⟩] := by decide +kernel

/-- Where no value begins with something in parentheses, what is malformed is a record without a
value or a call that comes too early. -/
theorem fault_of_literal {lines : List (List Char)} {lineNo : Nat} {text : String}
    (h : ∀ line ∈ lines, Literal line)
    (hread : readLines disk .all lines = .error (.malformed lineNo text)) :
    '=' ∉ text.toList ∨ text = "call record before fl=/fn=/cfn=" :=
  (Standing.follows_start disk).malformed_of_literal h hread

end AsyncSpread.Trace
