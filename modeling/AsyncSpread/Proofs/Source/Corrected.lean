import Mathlib.Order.Nat
import AsyncSpread.Proofs.Source.Found
import AsyncSpread.Proofs.Source.Steady

/-!
Raw calls that are corrected where they stand.

`correct` is the correction as a program over a raw call and the sources read so far.  Both
definitions are looked up before the first line is written, so a source that cannot be read leaves
the call as it was.  The line that is found is the first that shows the definition from itself on,
too, and what has been read is in the cache, so a second correction changes nothing
(`correct_settles`). A dotted name is looked for as it is written: it is found where its last
component is just if the line there spells all of it (`definitionLine?_dotted`).
-/

namespace AsyncSpread.Source

open Trace Cache

/-- Work on a raw call and the sources read so far.  What was done before a failure stays done. -/
abbrev Correcting := ExceptT Profile.Fault (StateM (RawCall × Cache))

def findLine (disk : Disk) (f : Frame) : Correcting (Option Nat) := do
  let (raw, c) ← get
  match resolveLine disk f.file f.name f.line c with
  | .error e => throw e
  | .ok (line, c) =>
    set (raw, c)
    return line

/-- Corrects the lines of both functions of a call, and tells whether both were found. -/
def correct (disk : Disk) : Correcting Bool := do
  let (raw, _) ← get
  let caller ← findLine disk raw.caller
  let callee ← findLine disk raw.callee
  modify fun (raw, c) => ({ raw with caller := moved raw.caller caller }, c)
  modify fun (raw, c) => ({ raw with callee := moved raw.callee callee }, c)
  return caller.isSome && callee.isSome

/-- A failure ends the work, with the state that it has reached. -/
theorem run_bind {α β : Type} (x : Correcting α) (f : α → Correcting β) (s : RawCall × Cache) :
    (x >>= f).run s = match x.run s with
    | (.error e, s') => (.error e, s')
    | (.ok a, s') => (f a).run s' := by
  show (match x.run s with | (a, s') => (ExceptT.bindCont f a : StateM _ _) s') = _
  obtain ⟨e | a, s'⟩ := x.run s <;> rfl

theorem run_findLine (disk : Disk) (f : Frame) (raw : RawCall) (c : Cache) :
    (findLine disk f).run (raw, c) = match resolveLine disk f.file f.name f.line c with
    | .error e => (.error e, raw, c)
    | .ok (line, c') => (.ok line, raw, c') := by
  show (match resolveLine disk f.file f.name f.line c with
    | .error e => (throw e : Correcting _)
    | .ok (line, c) => (do set (raw, c); return line)) (raw, c) = _
  cases resolveLine disk f.file f.name f.line c <;> rfl

/-- Correcting a call in place does to it what `resolveCall` gives. -/
theorem run_correct (disk : Disk) (raw : RawCall) (c : Cache) : (correct disk).run (raw, c) =
    match resolveCall disk raw c with
    | (c', .error e) => (.error e, raw, c')
    | (c', .ok (raw', both)) => (.ok both, raw', c') := by
  have hget (f : RawCall × Cache → Correcting Bool) :
    ((get : Correcting _) >>= f).run (raw, c) = (f (raw, c)).run (raw, c) := rfl
  rw [correct, hget, run_bind, run_findLine, resolveCall]
  cases resolveLine disk raw.caller.file raw.caller.name raw.caller.line c with
  | error e => rfl
  | ok first =>
    dsimp only
    rw [run_bind, run_findLine]
    cases resolveLine disk raw.callee.file raw.callee.name raw.callee.line first.2 with
    | error e => rfl
    | ok second => rfl

/-! ## What is found -/

/-- A line that shows the definition of a name: it holds the name and a keyword of definitions. -/
def Shows (lines : List (List Char)) (name : List Char) (number : Nat) : Prop :=
  ∃ line, lines[number]? = some line ∧ name <:+: line ∧
    ("def ".toList <:+: line ∨ "class ".toList <:+: line)

variable {lines : List (List Char)} {name : List Char} {reported number : Nat}

theorem shows_iff : Shows lines name number ↔
    ∃ line, lines[number]? = some line ∧ looksLikeDefinition name line = true := by
  simp only [Shows, looksLikeDefinition, Bool.and_eq_true, Bool.or_eq_true, Text.occursIn_iff]

theorem clear_iff : Clear lines name reported number ↔
    reported ≤ number ∧ ∀ n, reported ≤ n → n < number → ¬ Shows lines name n := by
  refine and_congr_right fun _ => forall_congr' fun n => ?_
  simp only [shows_iff, not_exists, not_and, Bool.not_eq_true]
  exact ⟨fun h hle hlt line hline => h line hle hlt hline,
    fun h line hle hlt hline => h hle hlt line hline⟩

/-- What is found is the least of the lines from the reported one on that show the definition. -/
theorem definitionLine?_eq_some_iff : definitionLine? name lines reported = some number ↔
    IsLeast {n | reported ≤ n ∧ Shows lines name n} number := by
  rw [definitionLine?_eq_some, ← shows_iff, clear_iff]
  constructor
  · rintro ⟨⟨hle, hclear⟩, hshows⟩
    exact ⟨⟨hle, hshows⟩, fun n hn => Nat.not_lt.1 fun hlt => hclear n hn.1 hlt hn.2⟩
  · rintro ⟨⟨hle, hshows⟩, hleast⟩
    exact ⟨⟨hle, fun n hn hlt hs => Nat.not_lt.2 (hleast ⟨hn, hs⟩) hlt⟩, hshows⟩

theorem definitionLine?_eq_none_iff : definitionLine? name lines reported = none ↔
    ∀ n, reported ≤ n → ¬ Shows lines name n := by
  constructor
  · intro hnone n hle hshows
    classical
    have hsome : ∃ n, reported ≤ n ∧ Shows lines name n := ⟨n, hle, hshows⟩
    rw [definitionLine?_eq_some_iff.2 (Nat.isLeast_find hsome)] at hnone
    cases hnone
  · intro h
    cases hfound : definitionLine? name lines reported with
    | none => rfl
    | some n =>
      have hleast := (definitionLine?_eq_some_iff.1 hfound).1
      exact absurd hleast.2 (h n hleast.1)

theorem definitionLine?_self (h : definitionLine? name lines reported = some number) :
    definitionLine? name lines number = some number := by
  have hleast := definitionLine?_eq_some_iff.1 h
  exact definitionLine?_eq_some_iff.2 ⟨⟨le_rfl, hleast.1.2⟩, fun n hn => hn.1⟩

/-! ## Names in parts -/

/-- A line that shows the definition of a name shows those of its parts, too. -/
theorem Shows.of_part {part : List Char} (h : Shows lines name number) (hpart : part <:+: name) :
    Shows lines part number := by
  obtain ⟨line, hline, hname, hkeyword⟩ := h
  exact ⟨line, hline, hpart.trans hname, hkeyword⟩

theorem le_of_definitionLine?_of_part {part : List Char} {n : Nat} (hpart : part <:+: name)
    (h : definitionLine? part lines reported = some number)
    (hname : definitionLine? name lines reported = some n) : number ≤ n := by
  have hshown := (definitionLine?_eq_some_iff.1 hname).1
  exact (definitionLine?_eq_some_iff.1 h).2 ⟨hshown.1, hshown.2.of_part hpart⟩

/-- A name is found where a part of it is found just if the line there spells the whole name. -/
theorem definitionLine?_eq_some_iff_of_part {part : List Char} (hpart : part <:+: name)
    (h : definitionLine? part lines reported = some number) :
    definitionLine? name lines reported = some number ↔ ∃ line, lines[number]? = some line ∧
      name <:+: line := by
  obtain ⟨⟨hle, line, hline, -, hkeyword⟩, hleast⟩ := definitionLine?_eq_some_iff.1 h
  constructor
  · intro hname
    obtain ⟨line', hline', hinfix, -⟩ := (definitionLine?_eq_some_iff.1 hname).1.2
    exact ⟨line', hline', hinfix⟩
  · rintro ⟨line', hline', hinfix⟩
    obtain rfl : line = line' := Option.some.inj (hline.symm.trans hline')
    refine definitionLine?_eq_some_iff.2 ⟨⟨hle, line, hline, hinfix, hkeyword⟩, fun n hn => ?_⟩
    exact hleast ⟨hn.1, hn.2.of_part hpart⟩

/-- A dotted name is looked for as it is written.  It is found where its last component is found
just if the line there spells all of it, and otherwise further down or not at all. -/
theorem definitionLine?_dotted {name : String}
    (h : definitionLine? (shortName name).toList lines reported = some number) :
    (definitionLine? name.toList lines reported = some number ↔ ∃ line, lines[number]? = some line ∧
      name.toList <:+: line) ∧
      ∀ n, definitionLine? name.toList lines reported = some n → number ≤ n := by
  have hpart : (shortName name).toList <:+: name.toList := (shortName_suffix name).isInfix
  exact ⟨definitionLine?_eq_some_iff_of_part hpart h,
    fun n hn => le_of_definitionLine?_of_part hpart h hn⟩

/-- A method is found by its own name only. -/
example :
    let lines := numbered "class Client:\n    def get(self):\n        pass\n".toList
    definitionLine? "get".toList lines 2 = some 2 ∧
        definitionLine? "Client.get".toList lines 2 = none := by
  decide

/-! ## What has been read -/

namespace Cache

variable {disk : Disk} {path : Path} {c c' : Cache} {ls : List (List Char)}

theorem lines_of_get? (h : c.get? (key disk path) = some ls) : c.lines disk path = .ok (ls, c) := by
  rw [lines, h]

/-- What has been read stays, and what is read now is there. -/
theorem get?_of_lines (h : c.lines disk path = .ok (ls, c')) :
    c'.get? (key disk path) = some ls ∧ ∀ k known, c.get? k = some known →
      c'.get? k = some known := by
  unfold lines at h
  cases hc : c.get? (key disk path) with
  | some found =>
    rw [hc] at h
    cases h
    exact ⟨hc, fun _ _ hk => hk⟩
  | none =>
    rw [hc] at h
    cases hbytes : disk.readBytes path with
    | error why =>
      rw [hbytes] at h
      cases h
    | ok bytes =>
      rw [hbytes] at h
      cases h
      refine ⟨(get?_cons _ _ _ _).trans (if_pos (beq_self_eq_true _)), fun k known hk => ?_⟩
      rw [get?_cons]
      by_cases hsame : (key disk path).same k = true
      · rw [get?_congr c hsame, hk] at hc
        cases hc
      · rw [if_neg hsame, hk]

theorem readBytes_of_lines {e : Unreadable} (h : c.lines disk path = .error e) :
    ∃ why, disk.readBytes path = .error why ∧ e = ⟨path, why⟩ := by
  unfold lines at h
  cases hc : c.get? (key disk path) with
  | some found =>
    rw [hc] at h
    cases h
  | none =>
    rw [hc] at h
    cases hbytes : disk.readBytes path with
    | error why =>
      rw [hbytes] at h
      cases h
      exact ⟨why, rfl, rfl⟩
    | ok bytes =>
      rw [hbytes] at h
      cases h

end Cache

/-! ## One function -/

/-- Where a function stands after the correction, and whether it was found, by what the cache has of
its source. -/
inductive Settled (disk : Disk) (c : Cache) (f : Frame) : Frame → Bool → Prop where
  /-- There is no source to look into. -/
  | synthetic (hname : (isSynthetic f.name || isSynthetic f.file.text) = true) :
      Settled disk c f f true
  | found {ls : List (List Char)} {number : Nat}
      (hname : (isSynthetic f.name || isSynthetic f.file.text) = false)
      (hlines : c.lines disk f.file = .ok (ls, c))
      (hleast : IsLeast {n | f.line ≤ n ∧ Shows ls f.name.toList n} number) : Settled disk c f
        { f with line := number } true
  | missing {ls : List (List Char)}
      (hname : (isSynthetic f.name || isSynthetic f.file.text) = false)
      (hlines : c.lines disk f.file = .ok (ls, c)) (hnone : ∀ n, f.line ≤ n →
        ¬ Shows ls f.name.toList n) :
      Settled disk c f f false

variable {disk : Disk} {f : Frame} {line : Option Nat} {c c' later : Cache}

/-- All that looking a function up can do: it has no source, or its source cannot be read, or it is
looked for in the lines there. -/
theorem resolveLine_cases (disk : Disk) (f : Frame) (c : Cache) :
    (isSynthetic f.name || isSynthetic f.file.text) = true ∧
    resolveLine disk f.file f.name f.line c = .ok (some f.line, c) ∨
    (isSynthetic f.name || isSynthetic f.file.text) = false ∧
      ((∃ e, c.lines disk f.file = .error e ∧
        resolveLine disk f.file f.name f.line c = .error (.source e)) ∨
        ∃ ls c', c.lines disk f.file = .ok (ls, c') ∧
          resolveLine disk f.file f.name f.line c = .ok
            (definitionLine? f.name.toList ls f.line, c')) := by
  cases hname : isSynthetic f.name || isSynthetic f.file.text with
  | true => exact .inl ⟨rfl, by rw [resolveLine, if_pos hname]⟩
  | false =>
    refine .inr ⟨rfl, ?_⟩
    cases hc : c.lines disk f.file with
    | error e => exact .inl ⟨e, rfl, by rw [resolveLine, hname, if_neg Bool.false_ne_true, hc]⟩
    | ok read =>
      exact .inr ⟨read.1, read.2, rfl, by rw [resolveLine, hname, if_neg Bool.false_ne_true, hc]⟩

/-- A function whose source has been read is looked for in what was read. -/
theorem resolveLine_of_lines {f : Frame} {ls : List (List Char)}
    (hname : (isSynthetic f.name || isSynthetic f.file.text) = false)
    (hlines : c.lines disk f.file = .ok (ls, c)) (line : Nat) :
    resolveLine disk f.file f.name line c = .ok (definitionLine? f.name.toList ls line, c) := by
  rw [resolveLine, hname, if_neg Bool.false_ne_true, hlines]

theorem get?_of_resolveLine (h : resolveLine disk f.file f.name f.line c = .ok (line, c')) :
    ∀ k known, c.get? k = some known → c'.get? k = some known := by
  rcases resolveLine_cases disk f c with ⟨-, hr⟩ | ⟨-, ⟨e, -, hr⟩ | ⟨ls, c₁, hc, hr⟩⟩
  · cases hr.symm.trans h
    exact fun _ _ hk => hk
  · cases hr.symm.trans h
  · cases hr.symm.trans h
    exact (get?_of_lines hc).2

/-- A function that has been looked up is settled for as long as what has been read is kept, and
looking it up where it is now gives the same. -/
theorem settled_of_resolveLine (h : resolveLine disk f.file f.name f.line c = .ok (line, c'))
    (hkept : ∀ k known, c'.get? k = some known → later.get? k = some known) :
    Settled disk later f (moved f line) line.isSome ∧
      resolveLine disk f.file f.name (moved f line).line later = .ok (line, later) := by
  rcases resolveLine_cases disk f c with ⟨hname, hr⟩ | ⟨hname, ⟨e, -, hr⟩ | ⟨ls, c₁, hc, hr⟩⟩
  · cases hr.symm.trans h
    exact ⟨.synthetic hname, by rw [resolveLine, if_pos hname]; rfl⟩
  · cases hr.symm.trans h
  · cases hr.symm.trans h
    have hlines := lines_of_get? (hkept _ _ (get?_of_lines hc).1)
    have hagain := resolveLine_of_lines hname hlines
    cases hline : definitionLine? f.name.toList ls f.line with
    | some number =>
      refine ⟨.found hname hlines (definitionLine?_eq_some_iff.1 hline), ?_⟩
      exact (hagain number).trans
        (congrArg (fun found => Except.ok (found, later)) (definitionLine?_self hline))
    | none =>
      refine ⟨.missing hname hlines (definitionLine?_eq_none_iff.1 hline), ?_⟩
      exact (hagain f.line).trans (congrArg (fun found => Except.ok (found, later)) hline)

theorem unreadable_of_resolveLine {e : Profile.Fault}
    (h : resolveLine disk f.file f.name f.line c = .error e) :
    (isSynthetic f.name || isSynthetic f.file.text) = false ∧
      ∃ why, disk.readBytes f.file = .error why ∧ e = .source ⟨f.file, why⟩ := by
  rcases resolveLine_cases disk f c with ⟨-, hr⟩ | ⟨hname, ⟨u, hc, hr⟩ | ⟨ls, c₁, -, hr⟩⟩
  · cases hr.symm.trans h
  · cases hr.symm.trans h
    obtain ⟨why, hwhy, rfl⟩ := readBytes_of_lines hc
    exact ⟨hname, why, hwhy, rfl⟩
  · cases hr.symm.trans h

theorem moved_moved (f : Frame) (line : Option Nat) : moved (moved f line) line = moved f line := by
  cases line <;> rfl

/-! ## A call -/

/-- What the correction of a call leaves.  A failure, which is an unreadable source of one of its
functions, leaves the call as it was.  Otherwise both functions are settled, and correcting the call
again at once gives the same answer and changes nothing. -/
theorem correct_settles (disk : Disk) (raw : RawCall) (c : Cache) :
    ∃ outcome raw' c', (correct disk).run (raw, c) = (outcome, raw', c') ∧
      resolveCall disk raw c = (c', outcome.map fun both => (raw', both)) ∧
      match outcome with
      | .error e => raw' = raw ∧
          ∃ f ∈ [raw.caller, raw.callee], (isSynthetic f.name || isSynthetic f.file.text) = false ∧
            ∃ why, disk.readBytes f.file = .error why ∧ e = .source ⟨f.file, why⟩
      | .ok both => raw'.callLine = raw.callLine ∧
          (∃ caller callee, Settled disk c' raw.caller raw'.caller caller ∧
            Settled disk c' raw.callee raw'.callee callee ∧ both = (caller && callee)) ∧
          (correct disk).run (raw', c') = (.ok both, raw', c') := by
  cases hcaller : resolveLine disk raw.caller.file raw.caller.name raw.caller.line c with
  | error e =>
    have hcall : resolveCall disk raw c = (c, .error e) := by rw [resolveCall, hcaller]
    obtain ⟨hname, hwhy⟩ := unreadable_of_resolveLine hcaller
    exact ⟨.error e, raw,
      c, by rw [run_correct, hcall], hcall, rfl, raw.caller, by simp, hname, hwhy⟩
  | ok first =>
    obtain ⟨line, c₁⟩ := first
    cases hcallee : resolveLine disk raw.callee.file raw.callee.name raw.callee.line c₁ with
    | error e =>
      have hcall : resolveCall disk raw c = (c₁, .error e) := by
        rw [resolveCall, hcaller]; dsimp only; rw [hcallee]
      obtain ⟨hname, hwhy⟩ := unreadable_of_resolveLine hcallee
      exact ⟨.error e, raw,
        c₁, by rw [run_correct, hcall], hcall, rfl, raw.callee, by simp, hname, hwhy⟩
    | ok second =>
      obtain ⟨line', c₂⟩ := second
      -- Both functions are looked up again in the cache that the second lookup leaves.
      obtain ⟨hsettled, hagain⟩ := settled_of_resolveLine hcaller (get?_of_resolveLine hcallee)
      obtain ⟨hsettled', hagain'⟩ := settled_of_resolveLine hcallee fun _ _ hk => hk
      have hcall : resolveCall disk raw c =
          (c₂, .ok (⟨moved raw.caller line, moved raw.callee line', raw.callLine⟩,
            line.isSome && line'.isSome)) := by
        rw [resolveCall, hcaller]
        dsimp only
        rw [hcallee]
      refine ⟨.ok (line.isSome && line'.isSome),
        ⟨moved raw.caller line, moved raw.callee line', raw.callLine⟩, c₂,
        by rw [run_correct, hcall], hcall, rfl, ⟨_, _, hsettled, hsettled', rfl⟩, ?_⟩
      have hfirst : resolveLine disk (moved raw.caller line).file (moved raw.caller line).name
          (moved raw.caller line).line c₂ = .ok (line, c₂) := hagain
      have hsecond : resolveLine disk (moved raw.callee line').file (moved raw.callee line').name
          (moved raw.callee line').line c₂ = .ok (line', c₂) := hagain'
      rw [run_correct, resolveCall]
      dsimp only
      rw [hfirst]
      dsimp only
      rw [hsecond]
      dsimp only
      rw [moved_moved, moved_moved]

end AsyncSpread.Source
