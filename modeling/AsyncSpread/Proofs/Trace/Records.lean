import AsyncSpread.Trace.Reader

/-!
What a line of a trace begins with.

A record begins with a letter of its key and a call site with its number, so no line is both
(`recordKey?_eq_none_of_site`).  What is read comes of the first line and of the others
(`exists_of_readFrom_record`, `exists_of_readFrom_site`).
-/

namespace AsyncSpread

namespace Text

/-- A word that begins neither with a digit nor with a plus sign is no number. -/
theorem readCount?_cons_eq_none {c : Char} (hplus : c ≠ '+') (hdigit : digit? c = none)
    (cs : List Char) : readCount? (c :: cs) = none := by
  unfold readCount?
  split
  · rename_i heq
    exact absurd (List.cons.inj heq).1 hplus
  · have hdigits : readDigits 0 (c :: cs) = none := by simp only [readDigits, hdigit]
    simp only [hdigits]
    rfl

theorem firstWord?_cons {c : Char} (h : isBlank c = false) (cs : List Char) :
    firstWord? (c :: cs) = some (c :: cs.takeWhile fun c => !isBlank c) := by
  rw [firstWord?, trimLeft, List.dropWhile_cons, h, if_neg Bool.false_ne_true,
    List.takeWhile_cons, h]
  rfl

end Text

namespace Trace

variable {line : List Char} {key : RecordKey}

theorem exists_cons_of_recordKey? (h : recordKey? line = some key) :
    ∃ c cs, line = c :: cs ∧ (c = 'c' ∨ c = 'f') := by
  have hheads : ∀ k ∈ recordKeys, k.1.toList.head? = some 'c' ∨
    k.1.toList.head? = some 'f' := by decide
  obtain ⟨k, hk, -⟩ := Option.map_eq_some_iff.1 h
  have hbegins := List.find?_some hk
  obtain ⟨rest, rfl⟩ := List.isPrefixOf_iff_prefix.1 hbegins
  have hhead := hheads k (List.mem_of_find?_eq_some hk)
  cases hw : k.1.toList with
  | nil =>
    rw [hw] at hhead
    rcases hhead with h | h <;> cases h
  | cons c cs =>
    rw [hw] at hhead
    exact ⟨c, cs ++ rest, rfl, hhead.imp Option.some.inj Option.some.inj⟩

theorem recordKey?_eq_none_of_site {lineNo n : Nat} (h : readCallLine lineNo line = .ok n) :
    recordKey? line = none := by
  cases hk : recordKey? line with
  | none => rfl
  | some key =>
    obtain ⟨c, cs, rfl, hc⟩ := exists_cons_of_recordKey? hk
    have hword : Text.isBlank c = false ∧ c ≠ '+' ∧ Text.digit? c = none := by
      rcases hc with rfl | rfl <;> decide
    obtain ⟨hblank, hplus, hdigit⟩ := hword
    rw [readCallLine, Text.firstWord?_cons hblank, Option.bind_some,
      Text.readCount?_cons_eq_none hplus hdigit] at h
    cases h

theorem Standing.wanted_all (s : Standing) : s.wanted .all = true := by
  unfold wanted
  cases s.callerFile <;> cases s.calleeFile? <;> rfl

theorem readRecord_of_recordKey?_eq_none (h : recordKey? line = none) (disk : Disk)
    (keep : FileFilter) (s : Standing) (lineNo : Nat) :
    readRecord disk keep s lineNo line = .ok (s, false) := by
  rw [readRecord, h]

/-! What is read from a line, and from the site of a call. -/

section

variable {disk : Disk} {keep : FileFilter} {s : Standing} {lineNo : Nat} {lines : List (List Char)}
  {calls : List RawCall}

theorem exists_of_readFrom_record
    (h : readFrom disk keep s false lineNo (line :: lines) = .ok calls) :
    ∃ s' atSite, readRecord disk keep s lineNo (Text.trim line) = .ok (s', atSite) ∧
      readFrom disk keep s' atSite (lineNo + 1) lines = .ok calls := by
  rw [readFrom] at h
  simp only [Bool.false_eq_true, if_false] at h
  split at h
  · cases h
  · rename_i s' atSite hrecord
    exact ⟨s', atSite, hrecord, h⟩

theorem exists_of_readFrom_site (h : readFrom disk keep s true lineNo (line :: lines) = .ok calls) :
    ∃ n c cs, readCallLine lineNo (Text.trim line) = .ok n ∧ s.call n lineNo = .ok c ∧
      readFrom disk keep s false (lineNo + 1) lines = .ok cs ∧ calls = c :: cs := by
  rw [readFrom] at h
  simp only [if_true] at h
  split at h
  · cases h
  · rename_i n hsite
    split at h
    · cases h
    · rename_i c hcall
      split at h
      · cases h
      · rename_i cs hrest
        cases h
        exact ⟨n, c, cs, hsite, hcall, hrest, rfl⟩

end

end Trace

end AsyncSpread
